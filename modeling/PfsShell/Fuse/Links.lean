/-
# Symbolic links through FUSE

`iomanx_adapter_symlink` translates both of its paths, also the first, which is the text of the
link; `iomanx_adapter_readlink` hands out what the link has.  So a text comes back with the mount
point in front of it, cut off where the buffer ends.

* `readlink_symlink_iff`: the text that comes back is the one that was given exactly when the
  buffer has just the room for it, and it is itself a beginning of what is stored.
-/
import PfsShell.Fuse.Stat
import PfsShell.Lib.Strings

namespace PfsShell.Fuse

open PfsShell.Lib

/-! ## 1. The two operations -/

/-- What the two operations call. -/
inductive LinkCall
  | symlink (old new : CStr)
  | readlink (path : CStr) (buflen : ℕ)

/-- What such a call returns: the value, and what it put into the buffer. -/
structure LinkReply where
  ret : ℤ := 0
  data : List UInt8 := []

/-- iomanX, as far as links go. -/
abbrev LinkIomanX (σ : Type) := LinkCall → σ → LinkReply × σ

/-- `IOMANX_MOUNT_POINT "/"`. -/
def iomanxRoot : CStr := ascii ['p', 'f', 's', '0', ':', '/']

/-- `translate_path`, for a buffer `s1` of `n` bytes.  `strncat` is given the size of the whole
buffer, and writes behind its end when the path is too long. -/
def translatePath (s2 : CStr) (n : ℕ) : Option CStr :=
  if iomanxRoot.length + (s2.take n).length < n then some (iomanxRoot ++ s2.take n) else none

/-- `buf[i] = '\0'`. -/
def terminate (buf : List UInt8) (i : ℤ) : Option (List UInt8) :=
  if 0 ≤ i ∧ i < buf.length then some (buf.set i.toNat 0) else none

section Operations

variable {σ : Type} (io : LinkIomanX σ)

/-- `iomanx_adapter_symlink`. -/
def iomanxAdapterSymlink (fromPath toPath : CStr) (w : σ) : Option (ℤ × σ) :=
  (translatePath fromPath 1024).bind fun translatedFrom =>
    (translatePath toPath 1024).map fun translatedTo =>
      let (reply, w) := io (.symlink translatedFrom translatedTo) w
      if reply.ret < 0 then (reply.ret, w) else (0, w)

/-- `iomanx_adapter_readlink`.  The size is that of the buffer; `iomanX_readlink` takes an
`unsigned int`. -/
def iomanxAdapterReadlink (path : CStr) (buf : List UInt8) (w : σ) :
    Option (ℤ × List UInt8 × σ) :=
  (translatePath path 1024).bind fun translatedPath =>
    let (reply, w) := io (.readlink translatedPath (u32 (buf.length - 1))) w
    let buf := reply.data ++ buf.drop reply.data.length
    if reply.ret < 0 then some (reply.ret, buf, w)
    else (terminate buf reply.ret).map fun buf => (0, buf, w)

end Operations

/-! ## 2. What comes back -/

/-- Links as iomanX keeps them: `text w path` is the text of a link. -/
structure StoresLinks {σ : Type} (io : LinkIomanX σ) (text : σ → CStr → Option CStr) : Prop where
  symlink : ∀ {old new w}, 0 ≤ (io (.symlink old new) w).1.ret →
    text (io (.symlink old new) w).2 new = some old
  readlink : ∀ {path t w} (buflen : ℕ), text w path = some t →
    (io (.readlink path buflen) w).1.ret = (t.take buflen).length ∧
      (io (.readlink path buflen) w).1.data = t.take buflen

section Links

variable {σ : Type} {io : LinkIomanX σ} {text : σ → CStr → Option CStr} {w : σ}

theorem translatePath_of_lt {path : CStr} (h : path.length + 6 < 1024) :
    translatePath path 1024 = some (iomanxRoot ++ path) := by
  have htake : path.take 1024 = path := List.take_of_length_le (by omega)
  have hroot : iomanxRoot.length = 6 := rfl
  rw [translatePath, htake, hroot, if_pos (by omega)]

/-- A link that was made has the translated text. -/
theorem symlink_stores (h : StoresLinks io text) {target path : CStr} {w' : σ}
    (htarget : target.length + 6 < 1024) (hpath : path.length + 6 < 1024)
    (hsym : iomanxAdapterSymlink io target path w = some (0, w')) :
    text w' (iomanxRoot ++ path) = some (iomanxRoot ++ target) := by
  rw [iomanxAdapterSymlink, translatePath_of_lt htarget, translatePath_of_lt hpath] at hsym
  have hrun : (if (io (.symlink (iomanxRoot ++ target) (iomanxRoot ++ path)) w).1.ret < 0 then
      ((io (.symlink (iomanxRoot ++ target) (iomanxRoot ++ path)) w).1.ret,
        (io (.symlink (iomanxRoot ++ target) (iomanxRoot ++ path)) w).2)
      else (0, (io (.symlink (iomanxRoot ++ target) (iomanxRoot ++ path)) w).2)) = (0, w') :=
    Option.some.inj hsym
  split at hrun
  · rename_i hneg
    rw [(Prod.mk.inj hrun).1] at hneg
    exact absurd hneg (lt_irrefl 0)
  · rename_i hneg
    rw [← (Prod.mk.inj hrun).2]
    exact h.symlink (not_lt.mp hneg)

/-- What `iomanx_adapter_readlink` leaves in its buffer: as much of the text as it asks for, and a
NUL. -/
theorem readlink_eq (h : StoresLinks io text) {path t : CStr} (buf : List UInt8)
    (hpath : path.length + 6 < 1024) (htext : text w (iomanxRoot ++ path) = some t)
    (hsize : 0 < buf.length) : ∃ rest w', iomanxAdapterReadlink io path buf w =
      some (0, t.take (u32 (buf.length - 1)) ++ 0 :: rest, w') := by
  obtain ⟨hret, hdata⟩ := h.readlink (u32 (buf.length - 1)) htext
  have hroom : (t.take (u32 (buf.length - 1))).length < buf.length := by
    have hle : (t.take (u32 (buf.length - 1))).length ≤ u32 (buf.length - 1) :=
      List.length_take_le _ _
    have hlt : u32 (buf.length - 1) < buf.length := by
      unfold u32
      omega
    omega
  generalize hgot : t.take (u32 (buf.length - 1)) = got at *
  -- the byte behind what was read becomes the terminator
  obtain ⟨x, rest, hrest⟩ : ∃ x rest, buf.drop got.length = x :: rest :=
    List.exists_cons_of_length_pos (by rw [List.length_drop]; omega)
  have hterm : terminate (got ++ buf.drop got.length) got.length = some (got ++ 0 :: rest) := by
    rw [terminate, if_pos ⟨by omega, by simp; omega⟩, hrest]
    simp
  refine ⟨rest, (io (.readlink (iomanxRoot ++ path) (u32 (buf.length - 1))) w).2, ?_⟩
  rw [iomanxAdapterReadlink, translatePath_of_lt hpath]
  refine (if_neg ?_).trans ?_
  · rw [hret]
    exact not_lt.mpr (Int.natCast_nonneg _)
  · rw [hret, hdata, hterm]
    rfl

/-- What a text begins with, behind a root, is the text itself. -/
theorem take_root_eq_iff {root s : List UInt8} (hroot : root ≠ []) (n : ℕ) :
    (root ++ s).take n = s ↔ n = s.length ∧ s <+: root ++ s := by
  constructor
  · intro h
    have hpre := List.take_prefix n (root ++ s)
    have hlen := congrArg List.length h
    have hpos := List.length_pos_iff.mpr hroot
    rw [h] at hpre
    rw [List.length_take, List.length_append] at hlen
    exact ⟨by omega, hpre⟩
  · rintro ⟨rfl, hpre⟩
    exact (List.prefix_iff_eq_take.mp hpre).symm

/-- **A link through FUSE**: the text that comes back is the one that was given exactly when the
buffer has just the room for it, and it begins as it does behind the mount point. -/
theorem readlink_symlink_iff (h : StoresLinks io text) (target path : CStr) (buf : List UInt8)
    {w' : σ} (hnul : 0 ∉ target) (htarget : target.length + 6 < 1024)
    (hpath : path.length + 6 < 1024) (hsize : target.length < buf.length)
    (hsym : iomanxAdapterSymlink io target path w = some (0, w')) :
    (∃ buf' w'', iomanxAdapterReadlink io path buf w' = some (0, buf', w'') ∧
      StringAt buf' 0 target) ↔
        u32 (buf.length - 1) = target.length ∧ target <+: iomanxRoot ++ target := by
  obtain ⟨rest, w₁, hread⟩ := readlink_eq h buf hpath (symlink_stores h htarget hpath hsym)
    (Nat.zero_lt_of_lt hsize)
  have hroot : 0 ∉ iomanxRoot := by decide
  -- without a NUL of its own, what was read is the string in the buffer
  have hnul' : 0 ∉ (iomanxRoot ++ target).take (u32 (buf.length - 1)) := by
    intro hmem
    rcases List.mem_append.mp (List.mem_of_mem_take hmem) with hmem | hmem
    · exact hroot hmem
    · exact hnul hmem
  have hstring := stringAt_cutAt ((iomanxRoot ++ target).take (u32 (buf.length - 1))) rest
  rw [cutAt_of_notMem hnul'] at hstring
  rw [hread, ← take_root_eq_iff (by decide : iomanxRoot ≠ [])]
  constructor
  · rintro ⟨buf', w'', hrun, htext⟩
    obtain ⟨-, hbuf, -⟩ : 0 = 0 ∧ _ = buf' ∧ w₁ = w'' := by simpa using Option.some.inj hrun
    subst hbuf
    exact hstring.unique htext
  · intro hsame
    rw [hsame] at hstring ⊢
    exact ⟨_, _, rfl, hstring⟩

end Links

/-- Links in a list, the newest first. -/
def listedLinks : LinkIomanX (List (CStr × CStr))
  | .symlink old new, links => ({}, (new, old) :: links)
  | .readlink path buflen, links =>
    match links.lookup path with
    | some t => ({ ret := (t.take buflen).length, data := t.take buflen }, links)
    | none => ({ ret := -2 }, links)

theorem listedLinks_stores : StoresLinks listedLinks fun links path => links.lookup path where
  symlink := by
    intro old new w _
    exact List.lookup_cons_self
  readlink := by
    intro path t w buflen htext
    have hgo : listedLinks (.readlink path buflen) w =
        ({ ret := (t.take buflen).length, data := t.take buflen }, w) := by
      rw [listedLinks, htext]
    rw [hgo]
    exact ⟨rfl, rfl⟩

/-- The text `pfs0:/`, read into a buffer of seven bytes. -/
theorem readlink_symlink_iff_root : ∃ buf' w'', iomanxAdapterReadlink listedLinks
    (ascii ['/', 'l']) [1, 1, 1, 1, 1, 1, 1]
      [(iomanxRoot ++ ascii ['/', 'l'], iomanxRoot ++ iomanxRoot)] = some (0, buf', w'') ∧
        StringAt buf' 0 iomanxRoot :=
  (readlink_symlink_iff listedLinks_stores iomanxRoot (ascii ['/', 'l']) [1, 1, 1, 1, 1, 1, 1]
    (w := []) (by decide) (by decide) (by decide) (by decide) rfl).mpr (by decide)

/-- The text `foo`, read into a buffer of sixteen bytes: what comes back is `pfs0:/foo`. -/
theorem readlink_symlink_foo :
    StoresLinks listedLinks (fun links path => links.lookup path) ∧
    iomanxAdapterSymlink listedLinks (ascii ['f', 'o', 'o']) (ascii ['/', 'l']) [] =
      some (0, [(iomanxRoot ++ ascii ['/', 'l'], iomanxRoot ++ ascii ['f', 'o', 'o'])]) ∧
    iomanxAdapterReadlink listedLinks (ascii ['/', 'l']) (List.replicate 16 1)
        [(iomanxRoot ++ ascii ['/', 'l'], iomanxRoot ++ ascii ['f', 'o', 'o'])] =
      some (0, iomanxRoot ++ ascii ['f', 'o', 'o'] ++ [0, 1, 1, 1, 1, 1, 1],
        [(iomanxRoot ++ ascii ['/', 'l'], iomanxRoot ++ ascii ['f', 'o', 'o'])]) ∧
    ¬ StringAt (iomanxRoot ++ ascii ['f', 'o', 'o'] ++ [0, 1, 1, 1, 1, 1, 1]) 0
      (ascii ['f', 'o', 'o']) := by
  refine ⟨listedLinks_stores, rfl, by decide, ?_⟩
  intro h
  have hstored : StringAt (iomanxRoot ++ ascii ['f', 'o', 'o'] ++ [0, 1, 1, 1, 1, 1, 1]) 0
      (iomanxRoot ++ ascii ['f', 'o', 'o']) := ⟨by decide, [1, 1, 1, 1, 1, 1], rfl⟩
  exact absurd (h.unique hstored) (by decide)

end PfsShell.Fuse
