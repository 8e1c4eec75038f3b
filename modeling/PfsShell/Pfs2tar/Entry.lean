/-
# One entry of the archive

`entryBytes` is what the archive holds for an entry of the given name: the header `tar_c_file`
builds, and for a file its content, filled up to whole blocks.  The fields of the header are read
back one by one; each of them is looked up through the stores that were made after it, which lie
elsewhere.
-/
import PfsShell.Pfs2tar.PlainFs

namespace PfsShell.Pfs2tar

open PfsShell.Lib

/-! ## 1. The bytes of an entry -/

/-- A content, filled up to whole blocks. -/
def pad (bytes : List UInt8) : List UInt8 :=
  bytes ++ List.replicate ((512 - bytes.length % 512) % 512) 0

/-- What follows the header. -/
def Body.content : Body → List UInt8
  | .file bytes => pad bytes
  | .dir | .link _ => []

/-- The size that the header gives. -/
def Body.size : Body → ℕ
  | .file bytes => bytes.length
  | .dir | .link _ => 0

/-- `TYPE`, and `SIZE` or `LINK`. -/
def storeBody : Body → (ℕ → UInt8) → ℕ → UInt8
  | .dir, b => storeType '5' b
  | .file bytes, b => storeSize bytes.length (storeType '0' b)
  | .link target, b => overlay (storeType '2' b) LINK (target.take 100)

/-- The header with the name in it. -/
def storedName (name : CStr) : ℕ → UInt8 :=
  match storePath name headerStart with
  | .stored b => b
  | _ => headerStart

/-- The header of an entry. -/
def entryHeader (name : CStr) (i : Inode) : ℕ → UInt8 :=
  storeChecksum (storeBody i.body (storeStat i.mode i.mtime (storedName name)))

/-- What the archive holds for an entry. -/
def entryBytes (name : CStr) (i : Inode) : List UInt8 :=
  window (entryHeader name i) 0 END ++ i.body.content

/-- The name of an entry in the archive. -/
def archName (P : CStr) (c : List CStr) : CStr := P ++ below c

/-- The names and the slashes of a path have no NUL in them. -/
theorem zero_notMem_archName {P : CStr} {c : List CStr} (hP : 0 ∉ P) (hc : ∀ n ∈ c, ValidName n) :
    0 ∉ archName P c := by
  rw [archName, List.mem_append, not_or]
  refine ⟨hP, ?_⟩
  by_cases hne : c = []
  · subst hne
    decide
  · rw [below_of_ne_nil hne, slashed, List.mem_flatMap]
    rintro ⟨n, hn, hmem⟩
    rcases List.mem_cons.mp hmem with h | h
    · exact absurd h (by decide)
    · exact (hc n hn).nul h

/-- The part of a path that goes into `NAME`, which is not always short enough for it. -/
def namePart (path : CStr) : CStr :=
  if 100 < path.length then
    match slashes path with
    | [] => []
    | first :: rest => path.drop (moveSeparate first rest)
  else path

/-- The part in front of it, in `NAME2`. -/
def prefixPart (path : CStr) : CStr :=
  if 100 < path.length then
    match slashes path with
    | [] => []
    | first :: rest => path.take (moveSeparate first rest)
  else []

/-- **Where the two parts of a path go.** -/
theorem storePath_eq {path : CStr} {b b' : ℕ → UInt8} (h : storePath path b = .stored b') :
    b' = overlay (overlay b NAME2 (prefixPart path)) NAME (namePart path) ∧
      (prefixPart path).length < 155 ∧ prefixPart path ++ namePart path = path := by
  unfold storePath at h
  unfold prefixPart namePart
  by_cases hlong : 100 < path.length
  · rw [if_pos hlong] at h
    rw [if_pos hlong, if_pos hlong]
    cases hslash : slashes path with
    | nil =>
      rw [hslash] at h
      cases h
    | cons first rest =>
      simp only [hslash] at h ⊢
      split at h
      · cases h
      · rename_i hsep
        refine ⟨(Stored.stored.inj h).symm, ?_, List.take_append_drop _ _⟩
        rw [List.length_take]
        omega
  · rw [if_neg hlong] at h
    rw [if_neg hlong, if_neg hlong, overlay_nil]
    exact ⟨(Stored.stored.inj h).symm, by decide, rfl⟩

/-- A name that has its place in a header: it is stored, and `NAME` is wide enough. -/
structure NameFits (name : CStr) : Prop where
  stored : storePath name headerStart = .stored (storedName name)
  le : (namePart name).length ≤ 100

theorem storedName_of_short {name : CStr} (h : name.length ≤ 100) :
    storedName name = overlay headerStart NAME name := by
  rw [storedName, storePath, if_neg (Nat.not_lt.mpr h)]

theorem storePath_of_short {name : CStr} (h : name.length ≤ 100) :
    storePath name headerStart = .stored (storedName name) := by
  rw [storedName, storePath, if_neg (Nat.not_lt.mpr h)]

theorem moveSeparate_lt {first : ℕ} (rest : List ℕ) (h : first < 155) :
    moveSeparate first rest < 155 := by
  induction rest generalizing first with
  | nil => exact h
  | cons next rest ih =>
    rw [moveSeparate]
    split
    · exact h
    · exact ih (by omega)

/-- The name of an entry always has its place, when the partition's is not too long. -/
theorem storePath_archName {P : CStr} (hP : P.length ≤ 32) (c : List CStr) :
    storePath (archName P c) headerStart = .stored (storedName (archName P c)) := by
  obtain ⟨s, hs⟩ := below_eq_cons c
  -- the slash behind the partition's name
  have hmem : P.length ∈ slashes (archName P c) := by
    rw [slashes, List.mem_filter, List.mem_range, archName, hs]
    simp
  unfold storedName storePath
  split
  · split
    · rename_i hnil
      rw [hnil] at hmem
      exact absurd hmem List.not_mem_nil
    · rename_i first rest heq
      have hsorted : (slashes (archName P c)).Pairwise (· < ·) :=
        List.Pairwise.filter _ List.pairwise_lt_range
      have hfirst : first ≤ P.length := by
        rw [heq] at hmem hsorted
        rcases List.mem_cons.mp hmem with h | h
        · omega
        · exact Nat.le_of_lt (List.rel_of_pairwise_cons hsorted h)
      have hlt : moveSeparate first rest < 155 := moveSeparate_lt rest (by omega)
      rw [if_neg (by omega)]
  · rfl

@[simp] theorem pad_nil : pad [] = [] := rfl

/-- The first block of a content, and the rest. -/
theorem pad_step {bytes : List UInt8} (h : bytes ≠ []) :
    pad bytes = bytes.take 512 ++ List.replicate (512 - (bytes.take 512).length) 0 ++
      pad (bytes.drop 512) := by
  have hpos : 0 < bytes.length := List.length_pos_iff.mpr h
  rcases Nat.lt_or_ge bytes.length 512 with hlt | hge
  · rw [List.take_of_length_le (Nat.le_of_lt hlt), List.drop_of_length_le (Nat.le_of_lt hlt),
      pad_nil, List.append_nil, pad]
    congr 2
    omega
  · have hmod : (bytes.drop 512).length % 512 = bytes.length % 512 := by
      rw [List.length_drop]
      omega
    have htake : 512 - (bytes.take 512).length = 0 := by
      rw [List.length_take]
      omega
    rw [htake, List.replicate_zero, List.append_nil, pad, pad, hmod, ← List.append_assoc,
      List.take_append_drop]

theorem length_pad (bytes : List UInt8) :
    (pad bytes).length = bytes.length + (512 - bytes.length % 512) % 512 := by
  rw [pad, List.length_append, List.length_replicate]

/-- A block with some bytes in it, the rest of it cleared. -/
theorem window_block (b : ℕ → UInt8) {data : List UInt8} (h : data.length ≤ 512) :
    window (if (data.length : ℤ) < END then overlay (overlay b 0 data) (data.length : ℤ).toNat
        (List.replicate (END - (data.length : ℤ).toNat) 0) else overlay b 0 data) 0 END =
      data ++ List.replicate (512 - data.length) 0 := by
  have hoverlay := overlay_append b 0 data (List.replicate (512 - data.length) 0)
  rw [Nat.zero_add] at hoverlay
  rw [Int.toNat_natCast]
  by_cases hlt : (data.length : ℤ) < END
  · rw [if_pos hlt, END, ← hoverlay, window_overlay_take _ _ (by simp; omega),
      List.take_of_length_le (by simp; omega)]
  · rw [END] at hlt
    have hfull : data.length = 512 := by omega
    rw [END, if_neg hlt, window_overlay_take _ _ (by omega), List.take_of_length_le h, hfull,
      Nat.sub_self, List.replicate_zero, List.append_nil]

/-- Dropping what was taken. -/
theorem drop_length_take (bytes : List UInt8) (n : ℕ) :
    bytes.drop (bytes.take n).length = bytes.drop n := by
  rcases Nat.le_total n bytes.length with h | h
  · rw [List.length_take_of_le h]
  · rw [List.take_of_length_le h, List.drop_length, List.drop_of_length_le h]

/-! ## 2. What the stores leave alone -/

theorem length_snprintf_le (n : ℕ) (s : CStr) : (snprintf (n + 1) s).length ≤ n + 1 := by
  rw [snprintf, List.length_append, List.length_take, List.length_singleton]
  omega

variable {b : ℕ → UInt8} {a n : ℕ}

theorem window_storeChecksum (h : a + n ≤ 148 ∨ 156 ≤ a) :
    window (storeChecksum b) a n = window b a n := by
  refine window_overlay_of_disjoint b ?_
  have hlen : (tarChecksum b).length ≤ 8 := length_snprintf_le 7 _
  simp only [CHK]
  omega

theorem window_storeType (type : Char) (h : a + n ≤ 156 ∨ 157 ≤ a) :
    window (storeType type b) a n = window b a n :=
  window_overlay_of_disjoint b h

theorem window_storeSize (size : ℕ) (h : a + n ≤ 124 ∨ 136 ≤ a) :
    window (storeSize size b) a n = window b a n := by
  refine window_overlay_of_disjoint b ?_
  have hlen : (snprintf 12 (octal 11 size)).length ≤ 12 := length_snprintf_le 11 _
  simp only [SIZE]
  omega

theorem window_storeBody (body : Body) (h : a + n ≤ 124 ∨ 136 ≤ a) (h' : a + n ≤ 156 ∨ 257 ≤ a) :
    window (storeBody body b) a n = window b a n := by
  cases body with
  | dir => exact window_storeType _ (by omega)
  | file bytes => rw [storeBody, window_storeSize _ h, window_storeType _ (by omega)]
  | link target =>
    have hlen : (target.take 100).length ≤ 100 := List.length_take_le 100 target
    rw [storeBody, window_overlay_of_disjoint _ (by simp only [LINK]; omega),
      window_storeType _ (by omega)]

theorem window_storeStat (mode : ℕ) (mtime : Stamp) (h : a + n ≤ 100 ∨ 108 ≤ a)
    (h' : a + n ≤ 136 ∨ 148 ≤ a) : window (storeStat mode mtime b) a n = window b a n := by
  have hmode : (snprintf 8 (octal 7 (convertModeToPosix mode))).length ≤ 8 :=
    length_snprintf_le 7 _
  have htime : (snprintf 12 (octal 11 (u32 (convertIoxStatTimeToPosix mtime)))).length ≤ 12 :=
    length_snprintf_le 11 _
  rw [storeStat, window_overlay_of_disjoint _ (by simp only [MTIME]; omega),
    window_overlay_of_disjoint _ (by simp only [ MODE]; omega)]

theorem window_storedName {name : CStr} (hname : NameFits name) (h : 100 ≤ a)
    (h' : a + n ≤ 345 ∨ 500 ≤ a) : window (storedName name) a n = window headerStart a n := by
  obtain ⟨heq, hprefix, -⟩ := storePath_eq hname.stored
  have hle := hname.le
  rw [heq, window_overlay_of_disjoint _ (Or.inr (by simp only [NAME]; omega)),
    window_overlay_of_disjoint _ (by simp only [NAME2]; omega)]

/-! ## 3. The fields -/

theorem field_window {k : ℕ} (h : a + k ≤ END) :
    field (window b 0 END) a k = cutAt 0 (window b a k) := by
  rw [field, take_drop_window b 0 h, Nat.zero_add]

theorem cutAt_append_zeros {s : CStr} (hs : (0 : UInt8) ∉ s) (k : ℕ) :
    cutAt 0 (s ++ List.replicate k 0) = s := by
  cases k with
  | zero => rw [List.replicate_zero, List.append_nil, cutAt_of_notMem hs]
  | succ k => rw [List.replicate_succ, cutAt_append_cons hs]

/-- A number of at most `k` digits, as `snprintf` leaves it. -/
theorem snprintf_octal {k m : ℕ} (h : m < 8 ^ k) :
    snprintf (k + 1) (octal k m) = octalDigits k m ++ [0] := by
  rw [snprintf, octal_eq h, Nat.add_sub_cancel, List.take_of_length_le (by simp)]

theorem strtol8_cutAt {k m : ℕ} (hk : 0 < k) (h : m < 8 ^ k) (r : CStr) :
    strtol8 (cutAt 0 (octalDigits k m ++ 0 :: r)) = m := by
  rw [cutAt_append_cons (zero_notMem_octalDigits k m), strtol8_octalDigits hk, Nat.mod_eq_of_lt h]

theorem u32_of_lt {m : ℕ} (h : m < 4294967296) : u32 (m : ℤ) = m := by
  rw [u32]
  omega

section Fields

variable {name : CStr} {i : Inode}

/-- Before the type is stored, only the checksum and the type's own fields are to come. -/
theorem field_entryHeader {k : ℕ} (h : a + k ≤ 124) :
    field (window (entryHeader name i) 0 END) a k =
      cutAt 0 (window (storeStat i.mode i.mtime (storedName name)) a k) := by
  rw [field_window (by simp only [END]; omega), entryHeader, window_storeChecksum (by omega),
    window_storeBody _ (by omega) (by omega)]

/-- A field of the header's start that holds nothing. -/
theorem window_headerStart (h : a + n ≤ 124 ∨ 135 ≤ a ∧ a + n ≤ 257 ∨ 265 ≤ a) :
    window headerStart a n = List.replicate n 0 := by
  have hdigits : (List.replicate 11 (48 : UInt8)).length = 11 := List.length_replicate
  have hmagic : (ascii ['u', 's', 't', 'a', 'r'] ++ [0]).length = 6 := rfl
  have hvers : (ascii ['0', '0']).length = 2 := rfl
  rw [headerStart, window_overlay_of_disjoint _ (by rw [hvers]; simp only [VERS]; omega),
    window_overlay_of_disjoint _ (by rw [hmagic]; simp only [MAGIC]; omega),
    window_overlay_of_disjoint _ (by rw [hdigits]; simp only [SIZE]; omega)]
  exact List.eq_replicate_iff.mpr ⟨length_window _ _ _, by simp [window, live]⟩

/-- A text in a field of the header's start. -/
theorem cutAt_window_headerStart {s : CStr} (hnul : 0 ∉ s) {k : ℕ} (hk : s.length ≤ k)
    (h : a + k ≤ 124 ∨ 135 ≤ a ∧ a + k ≤ 257 ∨ 265 ≤ a) :
    cutAt 0 (window (overlay headerStart a s) a k) = s := by
  rw [window_overlay _ _ hk, window_headerStart (by omega), cutAt_append_zeros hnul]

/-- The prefix is stored behind the name. -/
theorem window_namePart {path : CStr} (h : (namePart path).length ≤ 100) :
    window (overlay (overlay headerStart NAME2 (prefixPart path)) NAME (namePart path)) NAME 100 =
      window (overlay headerStart NAME (namePart path)) NAME 100 := by
  rw [window_overlay _ _ h, window_overlay _ _ h,
    window_overlay_of_disjoint _ (by simp only [NAME, NAME2]; omega)]

/-- **The name's part in `NAME`.** -/
theorem namePart_entry (hname : NameFits name) (hnul : 0 ∉ name) :
    nameField (window (entryHeader name i) 0 END) = namePart name := by
  obtain ⟨heq, hprefix, hparts⟩ := storePath_eq hname.stored
  have hle := hname.le
  have hzero : (0 : UInt8) ∉ namePart name := by
    intro h0
    rw [← hparts] at hnul
    exact hnul (List.mem_append_right _ h0)
  rw [nameField, field_entryHeader (by simp only [NAME]; omega),
    window_storeStat _ _ (by simp only [NAME]; omega) (by simp only [NAME]; omega), heq,
    window_namePart hle,
    cutAt_window_headerStart hzero hle (by simp only [NAME]; omega)]

/-- **The part in `NAME2`.** -/
theorem prefixPart_entry (hname : NameFits name) (hnul : 0 ∉ name) :
    field (window (entryHeader name i) 0 END) NAME2 155 = prefixPart name := by
  obtain ⟨heq, hprefix, hparts⟩ := storePath_eq hname.stored
  have hle := hname.le
  have hzero : (0 : UInt8) ∉ prefixPart name := by
    intro h0
    rw [← hparts] at hnul
    exact hnul (List.mem_append_left _ h0)
  rw [field_window (by decide), entryHeader, window_storeChecksum (by decide),
    window_storeBody _ (by decide) (by decide), window_storeStat _ _ (by decide) (by decide), heq,
    window_overlay_of_disjoint _ (by simp only [NAME, NAME2]; omega),
    cutAt_window_headerStart hzero (by omega) (by simp only [NAME2]; omega)]

theorem octalSize_entry (hname : NameFits name) (hsize : i.body.size < 4294967296) :
    strtol8 (field (window (entryHeader name i) 0 END) SIZE 12) = i.body.size := by
  have hlt : i.body.size < 8 ^ 11 := by omega
  have htext : window (entryHeader name i) SIZE 12 = octalDigits 11 i.body.size ++ [0] := by
    have hstart : window (storeStat i.mode i.mtime (storedName name)) SIZE 12 =
        octalDigits 11 0 ++ [0] := by
      rw [window_storeStat _ _ (by decide) (by decide),
        window_storedName hname (by decide) (by decide)]
      decide
    rw [entryHeader, window_storeChecksum (by decide)]
    cases hbody : i.body with
    | dir => rw [storeBody, window_storeType _ (by decide), hstart, Body.size]
    | file bytes =>
      rw [hbody] at hlt
      have hdigits : snprintf 12 (octal 11 bytes.length) = octalDigits 11 bytes.length ++ [0] :=
        snprintf_octal hlt
      rw [storeBody, storeSize, hdigits, window_overlay _ _ (by simp)]
      simp [Body.size]
    | link target =>
      rw [storeBody, window_overlay_of_disjoint _ (by simp only [SIZE, LINK]; omega),
        window_storeType _ (by decide), hstart, Body.size]
  rw [field_window (by decide), htext, strtol8_cutAt (by omega) hlt]

/-- The type of an entry in the archive. -/
def Body.type : Body → UInt8
  | .dir => 53
  | .file _ => 48
  | .link _ => 50

theorem typeField_entry : typeField (window (entryHeader name i) 0 END) = i.body.type := by
  have hget : typeField (window (entryHeader name i) 0 END) = entryHeader name i TYPE := by
    simp [typeField, window, live, TYPE, END]
  have hbyte : ∀ d : ℕ → UInt8, window d TYPE 1 = [d TYPE] := fun d => rfl
  have htext : window (entryHeader name i) TYPE 1 = [i.body.type] := by
    rw [entryHeader, window_storeChecksum (by decide)]
    cases i.body with
    | dir => exact window_overlay _ _ (Nat.le_refl 1)
    | file bytes =>
      rw [storeBody, window_storeSize _ (by decide)]
      exact window_overlay _ _ (Nat.le_refl 1)
    | link target =>
      rw [storeBody, window_overlay_of_disjoint _ (by simp only [TYPE, LINK]; omega)]
      exact window_overlay _ _ (Nat.le_refl 1)
  rw [hbyte] at htext
  rw [hget]
  exact List.head_eq_of_cons_eq htext

theorem linkField_entry (hname : NameFits name) {target : CStr} (hbody : i.body = .link target)
    (hlen : target.length ≤ 100) (hnul : 0 ∉ target) :
    linkField (window (entryHeader name i) 0 END) = target := by
  have hzero := window_headerStart (a := LINK + target.length) (n := 100 - target.length)
    (by simp only [LINK]; omega)
  rw [linkField, field_window (by decide), entryHeader,
    window_storeChecksum (by decide), hbody, storeBody,
    List.take_of_length_le hlen, window_overlay _ _ hlen,
    window_storeType _ (by simp only [LINK]; omega),
    window_storeStat _ _ (by simp only [LINK]; omega) (by simp only [LINK]; omega),
    window_storedName hname (by simp only [LINK]; omega) (by simp only [LINK]; omega), hzero,
    cutAt_append_zeros hnul]

end Fields

end PfsShell.Pfs2tar
