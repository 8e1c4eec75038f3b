/-
# Operations of several threads

FUSE calls the operations from several threads, and `src/iomanx_adapter.c` has no lock.  A read is a
seek, or two, and then a read: between them another thread may seek, read or write.

The threads are interleaved call by call of iomanX, each of which is taken to happen at once.
`fuseCalls` are the operations as calls that run freely (`Lib.Commit`), and `FuseCall.Does` is what
they are for (`Fuse.Handles`).

* `whole_run`: an operation that is alone is the function;
* `operations_serial`: in every interleaving the operations read and write what they are to, one after
  the other, as long as no two that are under way are on one descriptor, and no file is emptied while
  any other is under way;
* `reads_cross`: of two reads on one descriptor, one can get what the other asked for.
-/
import PfsShell.Fuse.Handles
import PfsShell.Lib.Commit

namespace PfsShell.Fuse

open PfsShell.Lib

variable {ι σ φ : Type}

/-! ## 1. The operations, call by call -/

/-- What an operation does next: a seek, with what comes after it, the transfer, or its only call. -/
inductive Midway
  | seek64 (fd offset : ℤ) (after : Option Call)
  | seek (fd offset : ℤ) (after : Option Call)
  | transfer (c : Call)
  | release (fd : ℤ)
  | named (c : NameCall)

/-- What comes after a seek. -/
def afterSeek (res : ℤ) (after : Option Call) : Answer ⊕ Midway :=
  if res < 0 then .inl { ret := res }
  else
    match after with
    | none => .inl {}
    | some c => .inr (.transfer c)

/-- What a transfer returns. -/
def transferred (c : Call) (reply : Reply) : Answer :=
  match c with
  | .read _ _ => { ret := reply.ret, data := reply.data }
  | _ => { ret := reply.ret }

/-- An operation before its first call. -/
def startFuse (o : FuseCall) : Answer ⊕ Midway :=
  match o with
  | .open _ none | .create _ _ none | .release none => .inl {}
  | .read _ _ none | .write _ _ none | .ftruncate _ none => .inl { ret := -2 }
  | .open path (some flags) => .inr (.named (.open path.translated (openFlags flags) none))
  | .create path mode (some flags) =>
    .inr (.named (.open path.translated (createFlags flags) (some (convertModeToIomanx mode))))
  | .unlink path => .inr (.named (.remove path.translated))
  | .release (some fi) => .inr (.release (toInt fi.fh))
  | .read size offset (some fi) =>
    .inr (.seek64 (toInt fi.fh) offset (some (.read (toInt fi.fh) (toInt size))))
  | .write buf offset (some fi) =>
    .inr (.seek64 (toInt fi.fh) offset (some (.write (toInt fi.fh) buf (toInt buf.length))))
  | .ftruncate offset (some fi) => .inr (.seek64 (toInt fi.fh) offset none)

section Calls

variable (io : IomanX σ) (names : NameIomanX σ)

/-- The next call of an operation. -/
def turnFuse (k : Midway) (w : σ) : (Answer ⊕ Midway) × σ :=
  match k with
  | .seek64 fd offset after =>
    let r := io (.lseek64 fd offset fioSeekSet) w
    if toInt r.1.ret = -48 then (.inr (.seek fd offset after), r.2)
    else (afterSeek (toInt r.1.ret) after, r.2)
  | .seek fd offset after =>
    let r := io (.lseek fd (toInt offset) fioSeekSet) w
    (afterSeek r.1.ret after, r.2)
  | .transfer c =>
    let r := io c w
    (.inl (transferred c r.1), r.2)
  | .release fd =>
    let r := io (.close fd) w
    (.inl (passed (r.1.ret, r.2)).1, r.2)
  | .named c =>
    let r := names c w
    match c with
    | .open _ _ _ => (.inl (opened r).1, r.2)
    | .remove _ => (.inl (passed r).1, r.2)

/-- The operations, as calls that run freely. -/
def fuseCalls : Calls FuseCall Midway Answer σ where
  start o _ := startFuse o
  turn := turnFuse io names

/-- The operation as a whole. -/
def FuseCall.run (o : FuseCall) (w : σ) : Option (Answer × σ) :=
  match o with
  | .open path fi => iomanxAdapterOpen names path.text fi w
  | .create path mode fi => iomanxAdapterCreate names path.text mode fi w
  | .unlink path => iomanxAdapterUnlink names path.text w
  | .release fi => some (iomanxAdapterRelease io fi w)
  | .read size offset fi =>
    let r := iomanxAdapterRead io size offset fi w
    some ({ ret := r.1.ret, data := r.1.data }, r.2)
  | .write buf offset fi =>
    let r := iomanxAdapterWrite io buf buf.length offset fi w
    some ({ ret := r.1.ret }, r.2)
  | .ftruncate offset fi => some (iomanxAdapterFtruncate io offset fi w)

end Calls

section Whole

variable {io : IomanX σ} {names : NameIomanX σ} {w w' : σ} {a : Answer}

/-- What an operation comes to after its seeks. -/
def seekThen (io : IomanX σ) (after : Option Call) (r : ℤ × σ) : Answer × σ :=
  if r.1 < 0 then ({ ret := r.1 }, r.2)
  else
    match after with
    | none => ({}, r.2)
    | some c => (transferred c (io c r.2).1, (io c r.2).2)

theorem runs_transfer {c : Call} (h : (fuseCalls io names).Runs (.transfer c) w a w') :
    (a, w') = (transferred c (io c w).1, (io c w).2) := by
  cases h with
  | last h =>
    obtain ⟨ha, rfl⟩ := Prod.mk.inj h
    rw [← Sum.inl.inj ha]
  | more h _ => cases (Prod.mk.inj h).1

/-- A step that ends with `afterSeek`. -/
theorem runs_after {k : Midway} {r : ℤ × σ} {after : Option Call}
    (hturn : turnFuse io names k w = (afterSeek r.1 after, r.2))
    (h : (fuseCalls io names).Runs k w a w') : (a, w') = seekThen io after r := by
  cases h with
  | last h =>
    obtain ⟨hafter, rfl⟩ := Prod.mk.inj (hturn.symm.trans h)
    simp only [afterSeek, seekThen] at hafter ⊢
    split at hafter
    · rename_i hneg
      rw [if_pos hneg, ← Sum.inl.inj hafter]
    · rename_i hneg
      rw [if_neg hneg]
      cases after with
      | none => rw [← Sum.inl.inj hafter]
      | some c => cases hafter
  | more h hrest =>
    obtain ⟨hafter, rfl⟩ := Prod.mk.inj (hturn.symm.trans h)
    simp only [afterSeek, seekThen] at hafter ⊢
    split at hafter
    · cases hafter
    · rename_i hneg
      rw [if_neg hneg]
      cases after with
      | none => cases hafter
      | some c =>
        rw [← Sum.inr.inj hafter] at hrest
        exact runs_transfer hrest

/-- The seeks are `iomanx_adapter_lseek`. -/
theorem runs_seek64 {fi : FuseFileInfo} {offset : ℤ} {after : Option Call}
    (h : (fuseCalls io names).Runs (.seek64 (toInt fi.fh) offset after) w a w') :
    (a, w') = seekThen io after (iomanxAdapterLseek io offset fioSeekSet (some fi) w) := by
  simp only [iomanxAdapterLseek]
  by_cases h48 : toInt (io (.lseek64 (toInt fi.fh) offset fioSeekSet) w).1.ret = -48
  · rw [if_pos h48]
    have hturn : turnFuse io names (.seek64 (toInt fi.fh) offset after) w =
        (.inr (.seek (toInt fi.fh) offset after),
          (io (.lseek64 (toInt fi.fh) offset fioSeekSet) w).2) := by
      simp only [turnFuse, if_pos h48]
    cases h with
    | last h => cases (Prod.mk.inj (hturn.symm.trans h)).1
    | more h hrest =>
      obtain ⟨hk, rfl⟩ := Prod.mk.inj (hturn.symm.trans h)
      rw [← Sum.inr.inj hk] at hrest
      exact runs_after (r := (_, _)) rfl hrest
  · rw [if_neg h48]
    refine runs_after (r := (_, _)) ?_ h
    simp only [turnFuse, if_neg h48]

/-- An operation of one call. -/
theorem runs_once {k : Midway} {b : Answer} {u : σ} (hturn : turnFuse io names k w = (.inl b, u))
    (h : (fuseCalls io names).Runs k w a w') : a = b ∧ w' = u := by
  cases h with
  | last h =>
    obtain ⟨ha, rfl⟩ := Prod.mk.inj (hturn.symm.trans h)
    exact ⟨(Sum.inl.inj ha).symm, rfl⟩
  | more h _ => cases (Prod.mk.inj (hturn.symm.trans h)).1

theorem opened_eq (r : ℤ × σ) : opened r = ((opened r).1, r.2) := by
  unfold opened
  split <;> rfl

theorem passed_eq (r : ℤ × σ) : passed r = ((passed r).1, r.2) := by
  unfold passed
  split <;> rfl

/-- **An operation that is alone** is the function. -/
theorem whole_run (o : FuseCall) (h : (fuseCalls io names).Whole o w a w') :
    o.run io names w = some (a, w') := by
  cases h with
  | refused h =>
    have hstart : startFuse o = .inl a := h
    cases o <;> rename_i fi <;> cases fi <;> cases hstart <;> rfl
  | ran h hruns =>
    have hstart : startFuse o = .inr _ := h
    cases o with
    | «open» path fi =>
      cases fi with
      | none => cases hstart
      | some flags =>
        rw [← Sum.inr.inj hstart] at hruns
        obtain ⟨rfl, rfl⟩ := runs_once rfl hruns
        simp only [FuseCall.run, iomanxAdapterOpen, path.translate, Option.map_some]
        rw [opened_eq]
    | create path mode fi =>
      cases fi with
      | none => cases hstart
      | some flags =>
        rw [← Sum.inr.inj hstart] at hruns
        obtain ⟨rfl, rfl⟩ := runs_once rfl hruns
        simp only [FuseCall.run, iomanxAdapterCreate, path.translate, Option.map_some]
        rw [opened_eq]
    | unlink path =>
      rw [← Sum.inr.inj hstart] at hruns
      obtain ⟨rfl, rfl⟩ := runs_once rfl hruns
      simp only [FuseCall.run, iomanxAdapterUnlink, path.translate, Option.map_some]
      rw [passed_eq]
    | release fi =>
      cases fi with
      | none => cases hstart
      | some fi =>
        rw [← Sum.inr.inj hstart] at hruns
        obtain ⟨rfl, rfl⟩ := runs_once rfl hruns
        simp only [FuseCall.run, iomanxAdapterRelease]
        rw [passed_eq]
    | read size offset fi =>
      cases fi with
      | none => cases hstart
      | some fi =>
        rw [← Sum.inr.inj hstart] at hruns
        simp only [FuseCall.run, adapterRead_eq]
        rw [runs_seek64 hruns, transferAfter, seekThen]
        split <;> rfl
    | write buf offset fi =>
      cases fi with
      | none => cases hstart
      | some fi =>
        rw [← Sum.inr.inj hstart] at hruns
        simp only [FuseCall.run, adapterWrite_eq]
        rw [runs_seek64 hruns, transferAfter, seekThen]
        split <;> rfl
    | ftruncate offset fi =>
      cases fi with
      | none => cases hstart
      | some fi =>
        rw [← Sum.inr.inj hstart] at hruns
        simp only [FuseCall.run, iomanxAdapterFtruncate]
        rw [runs_seek64 hruns, passed, seekThen]

end Whole

/-! ## 2. Which operations are made -/

/-- The descriptor of an operation. -/
def FuseCall.fd : FuseCall → Option ℤ
  | .release fi | .read _ _ fi | .write _ _ fi | .ftruncate _ fi => fi.map fun fi => toInt fi.fh
  | _ => none

/-- An offset is not negative, and where there is no `lseek64` it is below 2 GiB. -/
def FitsSeek (wide : Bool) (offset : ℤ) : Prop :=
  0 ≤ offset ∧ offset < 2 ^ 63 ∧ (wide = false → offset < 2 ^ 31)

/-- The numbers FUSE passes: not more than 2 GiB are moved at once. -/
def FuseCall.Fits (wide : Bool) : FuseCall → Prop
  | .read size offset _ => size < 2 ^ 31 ∧ FitsSeek wide offset
  | .write buf offset _ => buf.length < 2 ^ 31 ∧ FitsSeek wide offset
  | .ftruncate offset _ => FitsSeek wide offset
  | _ => True

/-- **What FUSE keeps to**: it uses a descriptor only while it is open. -/
def FuseCall.May (S : Store σ φ) (o : FuseCall) (w : σ) : Prop :=
  o.Fits S.wide ∧ ∀ fd ∈ o.fd, ((S.session w).file fd).isSome

/-- The operation empties the file it opens. -/
def FuseCall.Truncates : FuseCall → Prop
  | .open _ fi | .create _ _ fi => ∃ flags ∈ fi, flags &&& 0o1000 ≠ 0
  | _ => False

/-- **Two operations that may be under way together**: they are not on one descriptor, and where one
empties a file the other is on none. -/
def FuseCall.Apart (o o' : FuseCall) : Prop :=
  (∀ fd ∈ o.fd, fd ∉ o'.fd) ∧ (o.Truncates → o'.fd = none) ∧ (o'.Truncates → o.fd = none)

theorem FuseCall.Apart.symm {o o' : FuseCall} (h : o.Apart o') : o'.Apart o :=
  ⟨fun fd hfd hfd' => h.1 fd hfd' hfd, h.2.2, h.2.1⟩

/-- The first call of an operation that makes any. -/
inductive Starts : FuseCall → Midway → Prop
  | open {path : Path} {flags : ℕ} :
      Starts (.open path (some flags)) (.named (.open path.translated (openFlags flags) none))
  | create {path : Path} {mode flags : ℕ} : Starts (.create path mode (some flags))
      (.named (.open path.translated (createFlags flags) (some (convertModeToIomanx mode))))
  | unlink {path : Path} : Starts (.unlink path) (.named (.remove path.translated))
  | release {fi : FuseFileInfo} {fd : ℤ} (hfd : fd = toInt fi.fh) :
      Starts (.release (some fi)) (.release fd)
  | read {size : ℕ} {offset fd : ℤ} {fi : FuseFileInfo} (hfd : fd = toInt fi.fh) :
      Starts (.read size offset (some fi)) (.seek64 fd offset (some (.read fd (toInt size))))
  | write {buf : List UInt8} {offset fd : ℤ} {fi : FuseFileInfo} (hfd : fd = toInt fi.fh) :
      Starts (.write buf offset (some fi))
        (.seek64 fd offset (some (.write fd buf (toInt buf.length))))
  | ftruncate {offset fd : ℤ} {fi : FuseFileInfo} (hfd : fd = toInt fi.fh) :
      Starts (.ftruncate offset (some fi)) (.seek64 fd offset none)

theorem starts_of_start {o : FuseCall} {k : Midway} (h : startFuse o = .inr k) : Starts o k := by
  cases o with
  | «open» path fi =>
    cases fi <;> cases h
    exact .open
  | create path mode fi =>
    cases fi <;> cases h
    exact .create
  | unlink path =>
    cases h
    exact .unlink
  | release fi =>
    cases fi <;> cases h
    exact .release rfl
  | read size offset fi =>
    cases fi <;> cases h
    exact .read rfl
  | write buf offset fi =>
    cases fi <;> cases h
    exact .write rfl
  | ftruncate offset fi =>
    cases fi <;> cases h
    exact .ftruncate rfl

/-- The operations that begin with a seek are on a descriptor. -/
theorem Starts.seeks {o : FuseCall} {fd offset : ℤ} {after : Option Call}
    (h : Starts o (.seek64 fd offset after)) {wide : Bool} (hfits : o.Fits wide) :
    o.fd = some fd ∧ FitsSeek wide offset := by
  cases h with
  | read hfd => exact ⟨by rw [hfd]; rfl, hfits.2⟩
  | write hfd => exact ⟨by rw [hfd]; rfl, hfits.2⟩
  | ftruncate hfd => exact ⟨by rw [hfd]; rfl, hfits⟩

/-! ## 3. What is prepared -/

section Ready

variable {io : IomanX σ} {names : NameIomanX σ} {S : Store σ φ} {w w' : σ} {o o' : FuseCall}
  {k k' : Midway} {fd offset res : ℤ} {after : Option Call}

/-- `fd` stands at `offset`, not behind the end of its file. -/
def Store.Stands (S : Store σ φ) (fd offset : ℤ) (w : σ) : Prop :=
  (S.pos w fd : ℤ) = offset ∧ ∀ g, (S.session w).file fd = some g →
    S.pos w fd ≤ ((S.session w).bytes g).length

/-- **What an operation has prepared.**  With `lseek64` there is a second seek only where the answer
of the first looked like -48, and that seek fails. -/
def Ready (S : Store σ φ) (o : FuseCall) (k : Midway) (w : σ) : Prop :=
  o.May S w ∧
    match k with
    | .seek fd offset after => Starts o (.seek64 fd offset after) ∧
        (S.wide = true → toInt offset = -48)
    | .transfer c => ∃ offset, Starts o (.seek64 c.fd offset (some c)) ∧
        S.Stands c.fd offset w
    | k => Starts o k

/-- What the steps of `o` leave to the others. -/
structure Store.Leaves (S : Store σ φ) (o : FuseCall) (w w' : σ) : Prop where
  file : ∀ fd, fd ∉ o.fd → ((S.session w).file fd).isSome →
    (S.session w').file fd = (S.session w).file fd
  pos : ∀ fd, fd ∉ o.fd → ((S.session w).file fd).isSome → S.pos w' fd = S.pos w fd
  grows : ¬ o.Truncates → ∀ g, ((S.session w).bytes g).length ≤ ((S.session w').bytes g).length

/-- A step that changes no file. -/
theorem Store.leaves_of_same (hsame : S.session w' = S.session w) (hfd : o.fd = some fd)
    (hstill : S.Still fd w w') : S.Leaves o w w' where
  file := fun _ _ _ => by rw [hsame]
  pos := fun fd' hne _ => hstill fd' fun heq => hne (by rw [hfd, heq]; rfl)
  grows := fun _ _ => by rw [hsame]

/-- What is prepared lasts while others take their steps. -/
theorem Store.Leaves.ready (h : S.Leaves o w w') (hapart : o.Apart o') (hready : Ready S o' k' w) :
    Ready S o' k' w' := by
  obtain ⟨⟨hfits, hopen⟩, hk⟩ := hready
  have hfile : ∀ fd ∈ o'.fd, (S.session w').file fd = (S.session w).file fd := fun fd hfd =>
    h.file fd (fun hin => hapart.1 fd hin hfd) (hopen fd hfd)
  refine ⟨⟨hfits, fun fd hfd => ?_⟩, ?_⟩
  · rw [hfile fd hfd]
    exact hopen fd hfd
  · cases k' with
    | transfer c =>
      obtain ⟨offset, hstart, hpos, hin⟩ := hk
      have hfd : o'.fd = some c.fd := (hstart.seeks hfits).1
      have hmem : c.fd ∈ o'.fd := by rw [hfd]; rfl
      have hposw : S.pos w' c.fd = S.pos w c.fd :=
        h.pos c.fd (fun hin => hapart.1 _ hin hmem) (hopen _ hmem)
      have htrunc : ¬ o.Truncates := fun htrunc => by
        rw [hapart.2.1 htrunc] at hfd
        cases hfd
      refine ⟨offset, hstart, by rw [hposw, hpos], fun g hg => ?_⟩
      rw [hfile _ hmem] at hg
      rw [hposw]
      exact (hin g hg).trans (h.grows htrunc g)
    | seek64 => exact hk
    | seek => exact hk
    | release => exact hk
    | named => exact hk

end Ready

/-! ## 4. One step -/

theorem toInt_natCast {n : ℕ} (h : n < 2 ^ 31) : toInt n = n := by
  rw [(toInt_eq n).1 (by omega)]
  omega

section Step

variable [DecidableEq φ] {io : IomanX σ} {names : NameIomanX σ} {S : Store σ φ} {w w' : σ}
  {o : FuseCall} {k : Midway} {fd offset res : ℤ} {after : Option Call} {x : Answer ⊕ Midway}

/-- **What a step does**: the last one has the effect of the operation, and the others have none. -/
structure Store.Advances (S : Store σ φ) (o : FuseCall) (w : σ) (x : Answer ⊕ Midway) (w' : σ) :
    Prop where
  done : ∀ a, x = .inl a → o.Does (S.session w) a (S.session w')
  goes : ∀ k, x = .inr k → S.session w' = S.session w ∧ Ready S o k w'
  leaves : S.Leaves o w w'

omit [DecidableEq φ] in
/-- An operation may still be made when no file has changed. -/
theorem FuseCall.May.of_same (h : o.May S w) (hsame : S.session w' = S.session w) : o.May S w' :=
  ⟨h.1, fun fd hfd => by rw [hsame]; exact h.2 fd hfd⟩

/-- What comes after a seek that changed no file. -/
theorem after_advances (hmay : o.May S w) (hstart : Starts o (.seek64 fd offset after))
    (hsame : S.session w' = S.session w) (hstill : S.Still fd w w')
    (hstands : 0 ≤ res → S.Stands fd offset w') : S.Advances o w (afterSeek res after) w' := by
  have hleaves : S.Leaves o w w' :=
    Store.leaves_of_same hsame (hstart.seeks hmay.1).1 hstill
  have hgoes : ∀ c, after = some c → c.fd = fd → 0 ≤ res → Ready S o (.transfer c) w' := by
    rintro c rfl rfl hres
    exact ⟨hmay.of_same hsame, offset, hstart, hstands hres⟩
  unfold afterSeek
  by_cases hneg : res < 0
  · rw [if_pos hneg]
    refine ⟨fun a ha => ?_, (fun k hk => by cases hk), hleaves⟩
    cases ha
    rw [hsame]
    exact .failed hneg
  · rw [if_neg hneg]
    cases hstart with
    | read hfd =>
      refine ⟨(fun a ha => by cases ha), fun k hk => ⟨hsame, ?_⟩, hleaves⟩
      cases hk
      exact hgoes _ rfl rfl (Int.not_lt.mp hneg)
    | write hfd =>
      refine ⟨(fun a ha => by cases ha), fun k hk => ⟨hsame, ?_⟩, hleaves⟩
      cases hk
      exact hgoes _ rfl rfl (Int.not_lt.mp hneg)
    | ftruncate hfd =>
      refine ⟨fun a ha => ?_, (fun k hk => by cases hk), hleaves⟩
      cases ha
      rw [hsame]
      exact .ftruncate

/-- The first seek. -/
theorem seek64_advances (laws : StoreLaws io names S)
    (hready : Ready S o (.seek64 fd offset after) w)
    (hturn : turnFuse io names (.seek64 fd offset after) w = (x, w')) : S.Advances o w x w' := by
  obtain ⟨hmay, hstart⟩ := hready
  obtain ⟨hfd, h0, h63, -⟩ := hstart.seeks hmay.1
  simp only [turnFuse] at hturn
  generalize hr : io (.lseek64 fd offset fioSeekSet) w = r at hturn
  cases hwide : S.wide with
  | true =>
    obtain ⟨hseeks, hne⟩ := laws.lseek64 w fd offset hwide (hmay.2 fd (by rw [hfd]; rfl))
    rw [hr] at hseeks hne
    -- an answer that is negative is an `int` as it is
    have hneg : r.1.ret < 0 → toInt r.1.ret = r.1.ret := by
      intro hneg
      have hint := hseeks.int
      rw [(toInt_eq r.1.ret).2 (by omega)]
      omega
    by_cases h48 : toInt r.1.ret = -48
    · rw [if_pos h48] at hturn
      cases hturn
      have hnonneg : 0 ≤ r.1.ret := by
        by_contra hlt
        exact hne ((hneg (Int.not_le.mp hlt)).symm.trans h48)
      refine ⟨(fun a ha => by cases ha), fun k hk => ?_,
        Store.leaves_of_same hseeks.same hfd hseeks.still⟩
      cases hk
      refine ⟨hseeks.same, hmay.of_same hseeks.same, hstart, fun _ => ?_⟩
      rw [← (hseeks.there hnonneg).1]
      exact h48
    · rw [if_neg h48] at hturn
      cases hturn
      refine after_advances hmay hstart hseeks.same hseeks.still fun hres => ?_
      have hnonneg : 0 ≤ r.1.ret := by
        by_contra hlt
        rw [hneg (Int.not_le.mp hlt)] at hres
        exact hlt hres
      obtain ⟨-, hpos, hin⟩ := hseeks.there hnonneg
      exact ⟨hpos, fun g hg => by rw [hseeks.same] at hg ⊢; exact hin g hg⟩
  | false =>
    obtain ⟨hret, hsame, hstill⟩ := laws.unsupported w fd offset hwide
    rw [hr] at hret hsame hstill
    have h48 : toInt r.1.ret = -48 := by
      rw [hret]
      decide
    rw [if_pos h48] at hturn
    cases hturn
    refine ⟨(fun a ha => by cases ha), fun k hk => ?_, Store.leaves_of_same hsame hfd hstill⟩
    cases hk
    exact ⟨hsame, hmay.of_same hsame, hstart, fun h => by rw [hwide] at h; cases h⟩

/-- The second. -/
theorem seek_advances (laws : StoreLaws io names S) (hready : Ready S o (.seek fd offset after) w)
    (hturn : turnFuse io names (.seek fd offset after) w = (x, w')) : S.Advances o w x w' := by
  obtain ⟨hmay, hstart, hwide⟩ := hready
  obtain ⟨hfd, h0, -, hnarrow⟩ := hstart.seeks hmay.1
  have hseeks := laws.lseek w fd (toInt offset) (hmay.2 fd (by rw [hfd]; rfl))
  simp only [turnFuse] at hturn
  generalize io (.lseek fd (toInt offset) fioSeekSet) w = r at hturn hseeks
  cases hturn
  refine after_advances hmay hstart hseeks.same hseeks.still fun hres => ?_
  obtain ⟨hret, hpos, hin⟩ := hseeks.there hres
  have hoffset : toInt offset = offset := by
    cases hw : S.wide with
    | true =>
      have h48 := hwide hw
      omega
    | false =>
      have hlt := hnarrow hw
      rw [(toInt_eq offset).1 (by omega)]
      omega
  exact ⟨by rw [hpos, hoffset], fun g hg => by rw [hseeks.same] at hg ⊢; exact hin g hg⟩

/-- A read that was prepared. -/
theorem read_advances (laws : StoreLaws io names S) {size offset : ℕ} {fi : FuseFileInfo}
    (hmay : (FuseCall.read size offset (some fi)).May S w)
    (hpos : S.pos w (toInt fi.fh) = offset)
    (hturn : turnFuse io names (.transfer (.read (toInt fi.fh) (toInt size))) w = (x, w')) :
    S.Advances (.read size offset (some fi)) w x w' := by
  obtain ⟨g, hg⟩ := Option.isSome_iff_exists.mp (hmay.2 (toInt fi.fh) rfl)
  have hsize : size < 2 ^ 31 := hmay.1.1
  obtain ⟨hsame, hstill, hread⟩ := laws.reads w _ g size hg hsize
  rw [toInt_natCast hsize] at hturn
  simp only [turnFuse] at hturn
  cases hturn
  refine ⟨fun a ha => ?_, (fun k hk => by cases hk), Store.leaves_of_same hsame rfl hstill⟩
  cases ha
  rw [hsame]
  rcases Int.lt_or_le (io (.read (toInt fi.fh) size) w).1.ret 0 with hneg | hnonneg
  · exact .failed hneg
  · obtain ⟨hdata, hret⟩ := hread hnonneg
    simp only [transferred]
    rw [hdata, hret, hpos]
    exact .read hg

/-- A write that was prepared. -/
theorem write_advances (laws : StoreLaws io names S) {buf : List UInt8} {offset : ℕ}
    {fi : FuseFileInfo} (hmay : (FuseCall.write buf offset (some fi)).May S w)
    (hstands : S.Stands (toInt fi.fh) offset w)
    (hturn : turnFuse io names (.transfer (.write (toInt fi.fh) buf (toInt buf.length))) w =
      (x, w')) : S.Advances (.write buf offset (some fi)) w x w' := by
  obtain ⟨g, hg⟩ := Option.isSome_iff_exists.mp (hmay.2 (toInt fi.fh) rfl)
  have hsize : buf.length < 2 ^ 31 := hmay.1.1
  have hpos : S.pos w (toInt fi.fh) = offset := Int.ofNat_inj.mp hstands.1
  have hin := hstands.2 g hg
  obtain ⟨hstill, hfailed, hwrote⟩ := laws.writes w _ g buf hg hin hsize
  rw [toInt_natCast hsize] at hturn
  simp only [turnFuse] at hturn
  cases hturn
  rcases Int.lt_or_le (io (.write (toInt fi.fh) buf buf.length) w).1.ret 0 with hneg | hnonneg
  · have hsame := hfailed hneg
    refine ⟨fun a ha => ?_, (fun k hk => by cases hk), Store.leaves_of_same hsame rfl hstill⟩
    cases ha
    rw [hsame]
    exact .failed hneg
  · obtain ⟨n, hn, hret, hsession⟩ := hwrote hnonneg
    refine ⟨fun a ha => ?_, (fun k hk => by cases hk), fun fd hfd hopen => ?_,
      fun fd hfd _ => hstill fd fun heq => hfd (by rw [heq]; rfl), fun _ g' => ?_⟩
    · cases ha
      simp only [transferred]
      rw [hret, hsession, hpos]
      exact .write hg (by rw [← hpos]; exact hin) hn
    · rw [hsession]
    · rw [hsession]
      by_cases hg' : g' = g
      · subst hg'
        simpa using length_le_pwrite hin
      · simp [hg']

/-- A transfer that was prepared. -/
theorem transfer_advances (laws : StoreLaws io names S) {c : Call}
    (hready : Ready S o (.transfer c) w)
    (hturn : turnFuse io names (.transfer c) w = (x, w')) : S.Advances o w x w' := by
  obtain ⟨hmay, offset, hstart, hstands⟩ := hready
  obtain ⟨n, rfl⟩ : ∃ n : ℕ, offset = n := ⟨_, hstands.1.symm⟩
  generalize hc : c.fd = fd at hstart hstands
  cases hstart with
  | read hfd =>
    rw [hfd] at hturn hstands
    exact read_advances laws hmay (Int.ofNat_inj.mp hstands.1) hturn
  | write hfd =>
    rw [hfd] at hturn hstands
    exact write_advances laws hmay hstands hturn

/-- The only call of `iomanx_adapter_release`. -/
theorem release_advances (laws : StoreLaws io names S) (hready : Ready S o (.release fd) w)
    (hturn : turnFuse io names (.release fd) w = (x, w')) : S.Advances o w x w' := by
  obtain ⟨hmay, hstart⟩ := hready
  cases hstart with | @release fi _ hfd =>
  rw [hfd] at hturn
  obtain ⟨hstill, hfailed, hclosed⟩ := laws.closes w _ (hmay.2 (toInt fi.fh) rfl)
  simp only [turnFuse] at hturn
  generalize io (.close (toInt fi.fh)) w = r at hturn hstill hfailed hclosed
  cases hturn
  rcases Int.lt_or_le r.1.ret 0 with hneg | hnonneg
  · have hsame := hfailed hneg
    refine ⟨fun a ha => ?_, (fun k hk => by cases hk), Store.leaves_of_same hsame rfl hstill⟩
    cases ha
    rw [passed, if_pos hneg, hsame]
    exact .failed hneg
  · have hsession := hclosed hnonneg
    refine ⟨fun a ha => ?_, (fun k hk => by cases hk), fun fd hfd _ => ?_,
      fun fd hfd _ => hstill fd fun heq => hfd (by rw [heq]; rfl), fun _ g => by rw [hsession]⟩
    · cases ha
      rw [passed, if_neg (Int.not_lt.mpr hnonneg), hsession]
      exact .release
    · have hne : fd ≠ toInt fi.fh := fun heq => hfd (by rw [heq]; rfl)
      rw [hsession]
      simp [hne]

/-- What an open leaves to the others: its descriptor was not in use. -/
theorem opened_leaves {path : CStr} {creat trunc : Prop} {g : φ}
    (h : (S.session w).Opened path creat trunc fd g (S.session w'))
    (hpos : ∀ fd, ((S.session w).file fd).isSome → S.pos w' fd = S.pos w fd)
    (htrunc : trunc → o.Truncates) : S.Leaves o w w' where
  file := fun fd' _ hopen => by
    have hne : fd' ≠ fd := by
      rintro rfl
      rw [h.unused] at hopen
      cases hopen
    rw [h.file, Function.update_of_ne hne]
  pos := fun fd' _ hopen => hpos fd' hopen
  grows := fun hkeep g' => by rw [h.kept fun ht => hkeep (htrunc ht)]

/-- An open, of either kind: what it has to do is told by the flags iomanX gets. -/
theorem open_advances (laws : StoreLaws io names S) {path : CStr} {flags : ℕ} {mode : Option ℕ}
    (hdoes : ∀ fh g s', (S.session w).Opened path (flags &&& 0x0200 ≠ 0) (flags &&& 0x0400 ≠ 0)
      (toInt (fh : ℕ)) g s' → o.Does (S.session w) { fh := some fh } s')
    (htrunc : flags &&& 0x0400 ≠ 0 → o.Truncates)
    (hturn : turnFuse io names (.named (.open path flags mode)) w = (x, w')) :
    S.Advances o w x w' := by
  obtain ⟨hpos, hint, hfailed, hopened⟩ := laws.opens w path flags mode
  simp only [turnFuse] at hturn
  generalize names (.open path flags mode) w = r at hturn hpos hint hfailed hopened
  cases hturn
  rcases Int.lt_or_le r.1 0 with hneg | hnonneg
  · have hsame := hfailed hneg
    refine ⟨fun a ha => ?_, (fun k hk => by cases hk), fun _ _ _ => by rw [hsame],
      fun fd _ hopen => hpos fd hopen, fun _ _ => by rw [hsame]⟩
    cases ha
    rw [opened, if_pos hneg, hsame]
    exact .failed hneg
  · obtain ⟨g, hg⟩ := hopened hnonneg
    refine ⟨fun a ha => ?_, (fun k hk => by cases hk), opened_leaves hg hpos htrunc⟩
    cases ha
    rw [opened, if_neg (Int.not_lt.mpr hnonneg)]
    refine hdoes _ g _ ?_
    have hfd : toInt (r.1.toNat : ℕ) = r.1 := by
      rw [toInt_natCast (by omega)]
      omega
    rw [hfd]
    exact hg

/-- The only call of `iomanx_adapter_unlink`. -/
theorem remove_advances (laws : StoreLaws io names S) {path : Path}
    (hturn : turnFuse io names (.named (.remove path.translated)) w = (x, w')) :
    S.Advances (.unlink path) w x w' := by
  obtain ⟨hpos, hfailed, hremoved⟩ := laws.removes w path.translated
  simp only [turnFuse] at hturn
  generalize names (.remove path.translated) w = r at hturn hpos hfailed hremoved
  cases hturn
  rcases Int.lt_or_le r.1 0 with hneg | hnonneg
  · have hsame := hfailed hneg
    refine ⟨fun a ha => ?_, (fun k hk => by cases hk), fun _ _ _ => by rw [hsame],
      fun fd _ _ => by rw [hpos], fun _ _ => by rw [hsame]⟩
    cases ha
    rw [passed, if_pos hneg, hsame]
    exact .failed hneg
  · have hsession := hremoved hnonneg
    refine ⟨fun a ha => ?_, (fun k hk => by cases hk), fun _ _ _ => by rw [hsession],
      fun fd _ _ => by rw [hpos], fun _ _ => by rw [hsession]⟩
    cases ha
    rw [passed, if_neg (Int.not_lt.mpr hnonneg), hsession]
    exact .unlink

/-- **One step**, of any operation. -/
theorem turn_advances (laws : StoreLaws io names S) (hready : Ready S o k w)
    (hturn : turnFuse io names k w = (x, w')) : S.Advances o w x w' := by
  cases k with
  | seek64 => exact seek64_advances laws hready hturn
  | seek => exact seek_advances laws hready hturn
  | transfer => exact transfer_advances laws hready hturn
  | release => exact release_advances laws hready hturn
  | named c =>
    cases hready.2 with
    | @«open» path flags =>
      refine open_advances laws (fun fh g s' h => .open (g := g) ?_)
        (fun h => ⟨flags, rfl, (openFlags_trunc flags).mp h⟩) hturn
      exact h.congr (openFlags_creat flags) (openFlags_trunc flags)
    | @create path mode flags =>
      refine open_advances laws (fun fh g s' h => .create (g := g) ?_)
        (fun h => ⟨flags, rfl, (createFlags_trunc flags).mp h⟩) hturn
      exact h.congr (iff_of_true (createFlags_creat flags) trivial) (createFlags_trunc flags)
    | unlink => exact remove_advances laws hturn

end Step

/-! ## 5. Any number of threads -/

section Serial

variable [DecidableEq φ] {io : IomanX σ} {names : NameIomanX σ} {S : Store σ φ}

/-- **Each operation has its effect with its last call.** -/
theorem fuse_commits (laws : StoreLaws io names S) : (fuseCalls io names).Commits S.session
    FuseCall.Does (Ready S) (FuseCall.May S) FuseCall.Apart where
  symm := FuseCall.Apart.symm
  refused := by
    intro o w a _ hstart
    have h : startFuse o = .inl a := hstart
    cases o with
    | «open» path fi =>
      cases fi <;> cases h
      exact .openNothing
    | create path mode fi =>
      cases fi <;> cases h
      exact .createNothing
    | unlink path => cases h
    | release fi =>
      cases fi <;> cases h
      exact .releaseNothing
    | read size offset fi =>
      cases fi <;> cases h
      exact .failed (by decide)
    | write buf offset fi =>
      cases fi <;> cases h
      exact .failed (by decide)
    | ftruncate offset fi =>
      cases fi <;> cases h
      exact .failed (by decide)
  enters := by
    intro o w k hmay hstart
    refine ⟨hmay, ?_⟩
    have h : Starts o k := starts_of_start hstart
    cases k with
    | seek64 => exact h
    | release => exact h
    | named => exact h
    | seek => cases h
    | transfer => cases h
  prepares hready hturn := (turn_advances laws hready hturn).goes _ rfl
  commits hready hturn := (turn_advances laws hready hturn).done _ rfl
  lasts hready hturn hapart hready' := (turn_advances laws hready hturn).leaves.ready hapart hready'

variable [DecidableEq ι]

/-- **Operations of several threads are as good as one after the other**, however the calls of
iomanX come between each other, as long as no two under way are on one descriptor.  Each of them,
when it is alone, is the function of the adapter. -/
theorem operations_serial (laws : StoreLaws io names S) {es : List (Move ι FuseCall)} {w : σ}
    {s : Threads ι FuseCall Midway Answer σ}
    (hallowed : Along (fuseCalls io names).freely (Allowed (FuseCall.May S) FuseCall.Apart) es
      { shared := w })
    (hrun : run (fuseCalls io names).freely es { shared := w } = some s) :
    Serially FuseCall.Does s.returned (S.session w) (S.session s.shared) ∧
      ∀ o u a u', (fuseCalls io names).Whole o u a u' → o.run io names u = some (a, u') :=
  ⟨run_commits (fuse_commits laws) hallowed hrun, fun o _ _ _ => whole_run o⟩

end Serial

/-! ## 6. Two threads -/

instance (wide : Bool) (offset : ℤ) : Decidable (FitsSeek wide offset) :=
  inferInstanceAs (Decidable (_ ∧ _ ∧ _))

instance (wide : Bool) : ∀ o : FuseCall, Decidable (o.Fits wide)
  | .read size offset _ => inferInstanceAs (Decidable (size < 2 ^ 31 ∧ FitsSeek wide offset))
  | .write buf offset _ => inferInstanceAs (Decidable (buf.length < 2 ^ 31 ∧ FitsSeek wide offset))
  | .ftruncate offset _ => inferInstanceAs (Decidable (FitsSeek wide offset))
  | .open _ _ | .create _ _ _ | .unlink _ | .release _ => .isTrue trivial

instance (S : Store σ φ) (o : FuseCall) (w : σ) : Decidable (o.May S w) :=
  inferInstanceAs (Decidable (_ ∧ ∀ fd ∈ o.fd, ((S.session w).file fd).isSome))

instance : ∀ o : FuseCall, Decidable o.Truncates
  | .open _ fi | .create _ _ fi => inferInstanceAs (Decidable (∃ flags ∈ fi, flags &&& 0o1000 ≠ 0))
  | .unlink _ | .release _ | .read _ _ _ | .write _ _ _ | .ftruncate _ _ => .isFalse id

instance (o o' : FuseCall) : Decidable (o.Apart o') :=
  inferInstanceAs (Decidable ((∀ fd ∈ o.fd, fd ∉ o'.fd) ∧ _ ∧ _))

/-- `/a`. -/
def pathA : Path := ⟨[47, 97], by decide⟩

/-- One thread makes a file and writes to it while another reads it through a descriptor of its
own: their seeks and transfers come between each other. -/
def twoDescriptors : List (Move Bool FuseCall) :=
  [.call false (.create pathA 0o644 (some 2)), .turn false,
   .call false (.write [1, 2, 3, 4] 0 (some ⟨0⟩)), .turn false, .turn false,
   .call true (.open pathA (some 0)), .turn true,
   .call true (.read 4 0 (some ⟨1⟩)), .call false (.write [9] 2 (some ⟨0⟩)),
   .turn true, .turn false, .turn false, .turn true]

theorem operations_serial_two : ∃ s,
    run (fuseCalls diskTransfers diskNames).freely twoDescriptors { shared := Disk.empty } = some s ∧
    s.returned.map (fun c => (c.1, c.2.2)) =
      [(false, { fh := some 0 }), (false, { ret := 4 }), (true, { fh := some 1 }),
       (false, { ret := 1 }), (true, { ret := 4, data := [1, 2, 9, 4] })] ∧
    Serially FuseCall.Does s.returned Disk.empty.session s.shared.session := by
  obtain ⟨s, hrun, hret⟩ : ∃ s, run (fuseCalls diskTransfers diskNames).freely twoDescriptors
      { shared := Disk.empty } = some s ∧ s.returned.map (fun c => (c.1, c.2.2)) =
        [(false, { fh := some 0 }), (false, { ret := 4 }), (true, { fh := some 1 }),
         (false, { ret := 1 }), (true, { ret := 4, data := [1, 2, 9, 4] })] :=
    ⟨_, rfl, by decide +kernel⟩
  exact ⟨s, hrun, hret, (operations_serial diskLaws (by decide +kernel) hrun).1⟩

/-- What a read returns that does not fail. -/
theorem does_read [DecidableEq φ] {o : FuseCall} {t t' : Session φ} {a : Answer} {g : φ}
    (h : o.Does t a t') {size offset : ℕ} {fi : FuseFileInfo}
    (ho : o = .read size offset (some fi)) (hret : 0 ≤ a.ret)
    (hfile : t.file (toInt fi.fh) = some g) : a.data = pread (t.bytes g) offset size ∧ t' = t := by
  cases h with
  | failed hneg => exact absurd hret (Int.not_le.mpr hneg)
  | @read _ offset' _ g' _ hfile' =>
    obtain ⟨rfl, hoffset, hfi⟩ := FuseCall.read.inj ho
    obtain rfl : offset' = offset := Int.ofNat_inj.mp hoffset
    obtain rfl := Option.some.inj hfi
    obtain rfl := Option.some.inj (hfile.symm.trans hfile')
    exact ⟨rfl, rfl⟩
  | _ => cases ho

/-- The file `/a` of four bytes, open on the descriptor 0. -/
def oneFile : Disk :=
  (((Disk.empty.make pathA.translated).attach 0 (by decide)).fill 0 (by decide) [1, 2, 3, 4])

/-- Two threads read through that descriptor, one at the start and one at the third byte. -/
def oneDescriptor : List (Move Bool FuseCall) :=
  [.call false (.read 1 0 (some ⟨0⟩)), .call true (.read 1 2 (some ⟨0⟩)),
   .turn false, .turn true, .turn false, .turn true]

/-- **Reads on one descriptor cross**: the first gets what the second asked for, which no order of
the two explains. -/
theorem reads_cross : ∃ s,
    run (fuseCalls diskTransfers diskNames).freely oneDescriptor { shared := oneFile } = some s ∧
    s.returned = [(false, .read 1 0 (some ⟨0⟩), { ret := 1, data := [3] }),
      (true, .read 1 2 (some ⟨0⟩), { ret := 1, data := [4] })] ∧
    ∀ t, ¬ Serially FuseCall.Does s.returned oneFile.session t := by
  refine ⟨_, rfl, rfl, fun t h => ?_⟩
  obtain ⟨u, hfirst, -⟩ := Serially.of_snoc [_] h
  obtain ⟨v, hstart, hread⟩ := Serially.of_snoc [] hfirst
  obtain rfl : v = oneFile.session := hstart.of_nil
  have hasked : FuseCall.read 1 0 (some ⟨0⟩) = .read 1 (0 : ℕ) (some ⟨0⟩) := rfl
  have hdata := (does_read hread hasked (by decide) (g := 0) (by decide)).1
  exact absurd hdata (by decide)

end PfsShell.Fuse
