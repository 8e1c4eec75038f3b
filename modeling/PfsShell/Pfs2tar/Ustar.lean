/-
# The header as other programs read it

`Visit.header` is the header that a call of `tar_c_file` writes, if it writes one
(`tarCFile_header`).  A program that knows the ustar format takes two things from it that
`restore_from_tar` does not: the prefix in front of the name, and the checksum.

* `pathEncoded_iff`: the path is in the header if and only if it has at most 100 bytes, or no
  header is written.  A longer one keeps its slash when it is split, so that there are two, or
  runs out of its field;
* `checksumRight_iff`: the checksum is right if and only if every byte is below 128, as `char` is
  signed.
-/
import PfsShell.Pfs2tar.Framing

namespace PfsShell.Pfs2tar

open PfsShell.Lib

variable {σ τ : Type}

/-! ## 1. The header of a call -/

/-- The header a call of `tar_c_file` writes, if it writes one. -/
def Visit.header (io : IomanX σ) (v : Visit σ) : Option (List UInt8) :=
  v.stored.map fun b => window (v.opened io b).1 0 END

section Header

variable {io : IomanX σ} {fuel : ℕ} {v : Visit σ} {b : ℕ → UInt8} {t : Tar} {r : ℤ × σ × Tar}

/-- **What a call adds to the archive** begins with its header, and is nothing without one. -/
theorem tarCFile_header (h : tarCFile io fuel v.pi v.inPath v.st (v.before, t) = some r) :
    ∃ blocks, r.2.2.tarfile = t.tarfile ++ ((v.header io).getD [] ++ blocks) ∧
      (v.header io = none → blocks = []) := by
  have hadds : r.2.2.tarfile = t.tarfile ++ v.written io fuel := tarCFile_written r h
  cases hstored : v.stored with
  | none =>
    have hnone : v.header io = none := by rw [Visit.header, hstored, Option.map_none]
    refine ⟨[], ?_, fun _ => rfl⟩
    rw [hadds, written_of_not_stored hstored, hnone]
    rfl
  | some b =>
    have hsome : v.header io = some (window (v.opened io b).1 0 END) := by
      rw [Visit.header, hstored, Option.map_some]
    have hend : tarCFile io fuel v.pi v.inPath v.st (v.before, {}) ≠ none := by
      rw [tarCFile_of_some hstored, ne_eq, Option.map_eq_none_iff]
      rw [tarCFile_of_some hstored] at h
      intro hloop
      have happend := blockLoop_append io (v.opened io b).2.1 fuel (v.opened io b).1 END
        (v.opened io b).2.2 t.tarfile []
      rw [List.append_nil, show blockLoop io (v.opened io b).2.1 fuel (v.opened io b).1 END
        (v.opened io b).2.2 [] = none from hloop] at happend
      rw [happend] at h
      cases h
    obtain ⟨n, blocks, -, -, hwritten⟩ := written_of_stored hstored hend
    refine ⟨blocks, ?_, fun hnone => ?_⟩
    · rw [hadds, hwritten, hsome, Option.getD_some]
    · rw [hsome] at hnone
      cases hnone

/-- The header ends with the checksum. -/
theorem opened_checksummed (io : IomanX σ) (v : Visit σ) (b : ℕ → UInt8) :
    ∃ b', (v.opened io b).1 = storeChecksum b' := by
  unfold Visit.opened
  simp only
  split
  · exact ⟨_, rfl⟩
  · split
    · exact ⟨_, rfl⟩
    · split
      · exact ⟨_, rfl⟩
      · exact ⟨_, rfl⟩

/-- The name and the prefix are what was stored. -/
theorem window_opened {a n : ℕ} (h : a + n ≤ 100 ∨ 257 ≤ a) :
    window (v.opened io b).1 a n = window b a n := by
  have hstat := window_storeStat (b := b) (a := a) (n := n) v.st.mode v.st.mtime (by omega)
    (by omega)
  have htype : ∀ type, window (storeType type (storeStat v.st.mode v.st.mtime b)) a n =
      window b a n := fun type => by rw [window_storeType _ (by omega), hstat]
  unfold Visit.opened
  simp only
  split
  · rw [window_storeChecksum (by omega), window_storeSize _ (by omega), htype]
  · split
    · rw [window_storeChecksum (by omega), htype]
    · split
      · have hlen : ((io (.readlink v.inPath 100) v.before).1.data.take 100).length ≤ 100 :=
          List.length_take_le _ _
        rw [window_storeChecksum (by omega),
          window_overlay_of_disjoint _ (by simp only [LINK]; omega), htype]
      · rw [window_storeChecksum (by omega), hstat]

end Header

/-! ## 2. The path -/

/-- The prefix in front of the name. -/
def prefixField (header : List UInt8) : CStr := field header NAME2 155

/-- The path in a header: the name, behind the prefix and a slash if there is one. -/
def ustarPath (header : List UInt8) : CStr :=
  if prefixField header = [] then nameField header
  else prefixField header ++ slash :: nameField header

/-- The path of an entry in the archive. -/
def Visit.archivePath (v : Visit σ) : CStr := v.pi.pathPrefix ++ v.inPath.drop v.pi.origLen

/-- The byte `i` of a header belongs to the name or to the prefix. -/
def InPathFields (i : ℕ) : Prop := (NAME ≤ i ∧ i < NAME + 100) ∨ (NAME2 ≤ i ∧ i < NAME2 + 155)

/-- If a header is written, the path in it is the entry's, and storing it has changed no byte of
another field. -/
structure Visit.PathEncoded (io : IomanX σ) (v : Visit σ) : Prop where
  path : ∀ header, v.header io = some header → ustarPath header = v.archivePath
  fields : ∀ b, v.stored = some b → ∀ i, ¬ InPathFields i → b i = headerStart i

/-- No header is written for a file of 4 GB and more, nor for a long path without a slash where
it could be split. -/
def Visit.Skipped (v : Visit σ) : Prop :=
  (fioSIsreg v.st.mode = true ∧ v.st.hisize ≠ 0) ∨
    (100 < v.archivePath.length ∧ ∀ i < 155, v.archivePath[i]? ≠ some slash)

section Path

variable {io : IomanX σ} {v : Visit σ} {b : ℕ → UInt8}

theorem mem_slashes {path : CStr} {i : ℕ} : i ∈ slashes path ↔ path[i]? = some slash := by
  rw [slashes, List.mem_filter, List.mem_range, decide_eq_true_eq]
  refine and_iff_right_of_imp fun h => ?_
  exact (List.getElem?_eq_some_iff.mp h).1

/-- The separator is one of the slashes. -/
theorem moveSeparate_mem {first : ℕ} {rest : List ℕ} :
    moveSeparate first rest ∈ first :: rest := by
  induction rest generalizing first with
  | nil => exact List.mem_cons_self
  | cons next rest ih =>
    rw [moveSeparate]
    split
    · exact List.mem_cons_self
    · exact List.mem_cons_of_mem _ ih

/-- A long path is stored when it has a slash in its first 155 bytes. -/
theorem storePath_of_slash {path : CStr} (hlong : 100 < path.length) {i : ℕ} (hi : i < 155)
    (hslash : path[i]? = some slash) (b : ℕ → UInt8) : ∃ b', storePath path b = .stored b' := by
  have hmem := mem_slashes.mpr hslash
  rw [storePath, if_pos hlong]
  cases hs : slashes path with
  | nil =>
    rw [hs] at hmem
    exact absurd hmem List.not_mem_nil
  | cons first rest =>
    have hsorted : (slashes path).Pairwise (· < ·) := List.Pairwise.filter _ List.pairwise_lt_range
    have hfirst : first ≤ i := by
      rw [hs] at hmem hsorted
      rcases List.mem_cons.mp hmem with h | h
      · exact h.ge
      · exact Nat.le_of_lt (List.rel_of_pairwise_cons hsorted h)
    have hlt := moveSeparate_lt rest (Nat.lt_of_le_of_lt hfirst hi)
    simp only [if_neg (Nat.not_le.mpr hlt)]
    exact ⟨_, rfl⟩

/-- And only then. -/
theorem slash_of_storePath {path : CStr} (hlong : 100 < path.length) {b b' : ℕ → UInt8}
    (h : storePath path b = .stored b') : ∃ i < 155, path[i]? = some slash ∧
      prefixPart path = path.take i ∧ namePart path = path.drop i := by
  rw [storePath, if_pos hlong] at h
  rw [prefixPart, namePart, if_pos hlong, if_pos hlong]
  cases hs : slashes path with
  | nil =>
    rw [hs] at h
    cases h
  | cons first rest =>
    simp only [hs] at h
    have hmem : moveSeparate first rest ∈ slashes path := by
      rw [hs]
      exact moveSeparate_mem
    split at h
    · cases h
    · rename_i hlt
      exact ⟨_, Nat.not_le.mp hlt, mem_slashes.mp hmem, rfl, rfl⟩

/-- What is kept of the entry's path, which is all of it unless it is very long. -/
theorem path_eq_take (v : Visit σ) : v.path = v.archivePath.take 511 := rfl

theorem headerStart_zero {i : ℕ} (h : i < 124 ∨ 265 ≤ i) : headerStart i = 0 := by
  have hzero := window_headerStart (a := i) (n := 1) (by omega)
  simpa [window, live] using hzero

/-- A short path is in the header. -/
theorem pathEncoded_of_short (io : IomanX σ) (hnul : 0 ∉ v.archivePath)
    (h : v.archivePath.length ≤ 100) : v.PathEncoded io := by
  have hpath : v.path = v.archivePath := by
    rw [path_eq_take, List.take_of_length_le (by omega)]
  have hb : ∀ b, v.stored = some b → b = overlay headerStart NAME v.archivePath := by
    intro b hb
    have hstored := storePath_of_stored hb
    rw [hpath, storePath_of_short h, storedName_of_short h] at hstored
    exact (Stored.stored.inj hstored).symm
  constructor
  · intro header hheader
    obtain ⟨b, hstored, rfl⟩ := Option.map_eq_some_iff.mp hheader
    have hfront : prefixField (window (v.opened io b).1 0 END) = [] := by
      rw [prefixField, field_window (by decide), window_opened (by decide), hb b hstored,
        window_overlay_of_disjoint _ (by simp only [NAME, NAME2]; omega),
        window_headerStart (by decide)]
      rfl
    rw [ustarPath, if_pos hfront, nameField, field_window (by decide), window_opened (by decide),
      hb b hstored, cutAt_window_headerStart hnul h (by decide)]
  · intro b hstored i hi
    rw [hb b hstored]
    refine overlay_of_notMem (.inr ?_)
    simp only [InPathFields, NAME] at hi ⊢
    omega

/-- A long path that is stored is not in the header. -/
theorem not_pathEncoded_of_stored (hnul : 0 ∉ v.archivePath) (hlong : 100 < v.archivePath.length)
    (hstored : v.stored = some b) : ¬ v.PathEncoded io := by
  rintro ⟨hpath, hfields⟩
  have hlen : 100 < v.path.length := by
    rw [path_eq_take, List.length_take]
    omega
  have hnul' : 0 ∉ v.path := fun h => hnul (List.mem_of_mem_take h)
  obtain ⟨i, hi, hslash, hfront, hname⟩ := slash_of_storePath hlen (storePath_of_stored hstored)
  obtain ⟨hb, -, hparts⟩ := storePath_eq (storePath_of_stored hstored)
  -- a name of more than 100 bytes would show behind its field
  have hfits : (namePart v.path).length ≤ 100 := by
    by_contra hover
    have hbyte : b 100 = (namePart v.path)[100] := by
      rw [hb, overlay_of_mem (by decide) (by simp only [NAME]; omega)]
      rfl
    have hzero : b 100 = 0 := by
      rw [hfields b hstored 100 (by simp only [InPathFields, NAME, NAME2]; omega),
        headerStart_zero (by omega)]
    refine hnul' ?_
    rw [← hparts, ← hzero, hbyte]
    exact List.mem_append_right _ (List.getElem_mem _)
  have hsplit : (prefixPart v.path).length + (namePart v.path).length = v.path.length := by
    rw [← List.length_append, hparts]
  have hprefixLen : (prefixPart v.path).length = i := by
    have hlt : i < v.path.length := (List.getElem?_eq_some_iff.mp hslash).1
    rw [hfront, List.length_take]
    omega
  have hwhole : v.path = v.archivePath := by
    have htake : v.path.length = min 511 v.archivePath.length := by
      rw [path_eq_take, List.length_take]
    rw [path_eq_take, List.take_of_length_le (by omega)]
  have hprefixField : prefixField (window (v.opened io b).1 0 END) = prefixPart v.path := by
    rw [prefixField, field_window (by decide), window_opened (by decide), hb,
      window_overlay_of_disjoint _ (by simp only [NAME, NAME2]; omega),
      cutAt_window_headerStart (fun h => hnul' (hparts ▸ List.mem_append_left _ h)) (by omega)
        (by decide)]
  have hnameField : nameField (window (v.opened io b).1 0 END) = namePart v.path := by
    rw [nameField, field_window (by decide), window_opened (by decide), hb,
      window_namePart hfits,
      cutAt_window_headerStart (fun h => hnul' (hparts ▸ List.mem_append_right _ h)) hfits
        (by decide)]
  have hread := congrArg List.length (hpath _ (by rw [Visit.header, hstored, Option.map_some]))
  rw [ustarPath, hprefixField, hnameField, ← hwhole] at hread
  split at hread
  · omega
  · rw [List.length_append, List.length_cons] at hread
    omega

/-- No header is written exactly for the entries that are skipped, when their path is long. -/
theorem stored_eq_none_iff (hlong : 100 < v.archivePath.length) :
    v.stored = none ↔ v.Skipped := by
  have hlen : 100 < v.path.length := by
    rw [path_eq_take, List.length_take]
    omega
  -- the search looks at the first 155 bytes, which are kept
  have hsame : ∀ i < 155, v.path[i]? = v.archivePath[i]? := fun i hi => by
    rw [path_eq_take, List.getElem?_take_of_lt (by omega)]
  rw [Visit.Skipped, and_iff_right hlong]
  by_cases htoo : fioSIsreg v.st.mode = true ∧ v.st.hisize ≠ 0
  · refine iff_of_true ?_ (.inl htoo)
    rw [Visit.stored, if_pos htoo]
  · have hnonempty : v.path.length ≠ 0 := Nat.ne_of_gt (Nat.zero_lt_of_lt hlen)
    rw [or_iff_right htoo]
    constructor
    · intro hnone i hi hslash
      obtain ⟨b, hb⟩ := storePath_of_slash hlen hi ((hsame i hi).trans hslash) headerStart
      rw [Visit.stored, if_neg htoo] at hnone
      dsimp only at hnone
      rw [Visit.path] at hb hnonempty
      rw [if_neg hnonempty, hb] at hnone
      cases hnone
    · intro hno
      cases hs : v.stored with
      | none => rfl
      | some b =>
        obtain ⟨i, hi, hslash, -⟩ := slash_of_storePath hlen (storePath_of_stored hs)
        exact absurd ((hsame i hi).symm.trans hslash) (hno i hi)

/-- **When the path is in the header**: as long as it has at most 100 bytes, or no header is
written. -/
theorem pathEncoded_iff (io : IomanX σ) (v : Visit σ) (hnul : 0 ∉ v.archivePath) :
    v.PathEncoded io ↔ v.archivePath.length ≤ 100 ∨ v.Skipped := by
  by_cases hlong : 100 < v.archivePath.length
  · rw [or_iff_right (Nat.not_le.mpr hlong), ← stored_eq_none_iff hlong]
    constructor
    · intro h
      cases hs : v.stored with
      | none => rfl
      | some b => exact absurd h (not_pathEncoded_of_stored hnul hlong hs)
    · intro hnone
      constructor
      · intro header hheader
        rw [Visit.header, hnone] at hheader
        cases hheader
      · intro b hb
        rw [hnone] at hb
        cases hb
  · have hshort := Nat.not_lt.mp hlong
    exact iff_of_true (pathEncoded_of_short io hnul hshort) (.inl hshort)

end Path

/-- A directory of the partition `A` with a name of 99 letters. -/
def longVisit : Visit Unit :=
  { pi := ⟨6, ascii ['A', '/']⟩, inPath := mountPoint ++ slash :: List.replicate 99 120,
    st := { mode := fioSIfdir }, before := () }

/-- A directory in the root of that partition. -/
def shortVisit : Visit Unit := { longVisit with inPath := mountPoint ++ slash :: [120] }

theorem pathEncoded_short : ∃ io : IomanX Unit, shortVisit.PathEncoded io :=
  ⟨fun _ w => ({}, w), (pathEncoded_iff _ shortVisit (by decide)).mpr (.inl (by decide))⟩

/-- **A path of 101 bytes**: there are two slashes in the header. -/
theorem long_path_doubled : ∃ io : IomanX Unit, ¬ longVisit.PathEncoded io ∧
    ∃ header, longVisit.header io = some header ∧
      ustarPath header = ascii ['A', '/', '/'] ++ List.replicate 99 120 := by
  obtain ⟨io, hio⟩ : ∃ io : IomanX Unit, io = fun _ w => ({}, w) := ⟨_, rfl⟩
  have hstored : longVisit.stored = some (overlay (overlay headerStart NAME2 (ascii ['A'])) NAME
      (slash :: List.replicate 99 120)) := rfl
  refine ⟨io, not_pathEncoded_of_stored (by decide) (by decide) hstored,
    window (longVisit.opened io _).1 0 END, by rw [Visit.header, hstored, Option.map_some], ?_⟩
  rw [ustarPath, prefixField, nameField, field_window (by decide), field_window (by decide),
    window_opened (by decide), window_opened (by decide)]
  decide

/-! ## 3. The checksum -/

/-- The byte `i` belongs to the checksum. -/
def InChecksum (i : ℕ) : Prop := CHK ≤ i ∧ i < CHK + 8

instance (i : ℕ) : Decidable (InChecksum i) := inferInstanceAs (Decidable (_ ∧ _))

/-- The sum of the header's bytes, where those of the checksum count as spaces. -/
def checksum (b : ℕ → UInt8) : ℕ :=
  ((List.range END).map fun i => if InChecksum i then 32 else (b i).toNat).sum

/-- The checksum in a header is the octal text of that sum, which fits its field. -/
def ChecksumRight (b : ℕ → UInt8) : Prop := window b CHK 8 = octal 7 (checksum b) ++ [0]

section Checksum

variable {b : ℕ → UInt8}

/-- The byte `i` counts as a negative number. -/
def negative (b : ℕ → UInt8) (i : ℕ) : Bool := ¬ InChecksum i ∧ 128 ≤ (b i).toNat

/-- What `tar_checksum` adds up misses 256 for each negative byte. -/
theorem sum_schar (l : List ℕ) :
    (l.map fun i => if CHK ≤ i ∧ i < CHK + 8 then 32 else schar (b i)).sum =
      ((l.map fun i => if InChecksum i then 32 else (b i).toNat).sum : ℕ) -
        256 * (l.countP (negative b) : ℕ) := by
  induction l with
  | nil => rfl
  | cons i l ih =>
    rw [List.map_cons, List.sum_cons, ih, List.map_cons, List.sum_cons, List.countP_cons]
    by_cases hchk : InChecksum i
    · have hneg : negative b i = false := by simp [negative, hchk]
      rw [if_pos hchk, if_pos (show CHK ≤ i ∧ i < CHK + 8 from hchk), hneg,
        if_neg Bool.false_ne_true]
      omega
    · rw [if_neg hchk, if_neg (show ¬ (CHK ≤ i ∧ i < CHK + 8) from hchk), schar]
      by_cases hlow : (b i).toNat < 128
      · have hneg : negative b i = false := by simp [negative, hlow]
        rw [if_pos hlow, hneg, if_neg Bool.false_ne_true]
        omega
      · have hneg : negative b i = true := by simp [negative, hchk]; omega
        rw [if_neg hlow, hneg, if_pos rfl]
        omega

theorem checksum_lt (b : ℕ → UInt8) : checksum b < 8 ^ 6 := by
  have hbyte : ∀ x ∈ (List.range END).map fun i => if InChecksum i then 32 else (b i).toNat,
      x ≤ 255 := by
    intro x hx
    obtain ⟨i, -, rfl⟩ := List.mem_map.mp hx
    have hlt : (b i).toNat < 256 := (b i).toNat_lt
    split
    · omega
    · omega
  have hsum := List.sum_le_card_nsmul _ 255 hbyte
  rw [List.length_map, List.length_range] at hsum
  exact Nat.lt_of_le_of_lt hsum (by decide)

/-- Storing the checksum does not change the sum. -/
theorem checksum_storeChecksum (b : ℕ → UInt8) : checksum (storeChecksum b) = checksum b := by
  refine congrArg List.sum (List.map_congr_left fun i _ => ?_)
  by_cases hchk : InChecksum i
  · rw [if_pos hchk, if_pos hchk]
  · have hlen : (tarChecksum b).length ≤ 8 := length_snprintf_le 7 _
    have hsame : storeChecksum b i = b i :=
      overlay_of_notMem (by simp only [InChecksum] at hchk; omega)
    rw [if_neg hchk, if_neg hchk, hsame]

/-- The text in the field. -/
theorem window_checksum (b : ℕ → UInt8) : window (storeChecksum b) CHK 8 = tarChecksum b := by
  have hlen : (tarChecksum b).length = 8 := by
    rw [tarChecksum, snprintf, List.length_append, List.length_take, octal, length_octalDigits,
      List.length_singleton]
    omega
  rw [storeChecksum, window_overlay_take b CHK (Nat.le_of_eq hlen.symm), List.take_of_length_le
    (Nat.le_of_eq hlen)]

theorem checksum_eq (b : ℕ → UInt8) : tarChecksum b = snprintf 8 (octal 7 (u32
    ((checksum b : ℤ) - 256 * ((List.range END).countP (negative b) : ℕ)))) := by
  rw [tarChecksum, sum_schar]
  rfl

/-- With bytes below 128 the sums are the same. -/
theorem checksumRight_of_low (h : ∀ i < END, ¬ InChecksum i → (b i).toNat < 128) :
    ChecksumRight (storeChecksum b) := by
  have hnone : (List.range END).countP (negative b) = 0 := by
    rw [List.countP_eq_zero]
    intro i hi hneg
    simp only [negative, decide_eq_true_eq] at hneg
    have hlow := h i (List.mem_range.mp hi) hneg.1
    omega
  have hlt := checksum_lt b
  rw [ChecksumRight, window_checksum, checksum_storeChecksum, checksum_eq, hnone, Nat.cast_zero,
    mul_zero, sub_zero, u32_of_lt (by omega), snprintf_octal (by omega), octal_eq (by omega)]

/-- With one of 128 and more they differ, and a negative one is cut off behind its first digits. -/
theorem not_checksumRight_of_high {i : ℕ} (hi : i < END) (hchk : ¬ InChecksum i)
    (hhigh : 128 ≤ (b i).toNat) : ¬ ChecksumRight (storeChecksum b) := by
  obtain ⟨n, hn⟩ : ∃ n, n = (List.range END).countP (negative b) := ⟨_, rfl⟩
  obtain ⟨m, hm⟩ : ∃ m, m = checksum b := ⟨_, rfl⟩
  have hpos : 0 < n := by
    rw [hn, List.countP_pos_iff]
    exact ⟨i, List.mem_range.mpr hi, by simp [negative, hchk, hhigh]⟩
  have hle : n ≤ 512 := by
    rw [hn]
    exact List.countP_le_length.trans_eq List.length_range
  have hlt : m < 8 ^ 6 := hm ▸ checksum_lt b
  rw [ChecksumRight, window_checksum, checksum_storeChecksum, checksum_eq, ← hn, ← hm]
  intro heq
  rw [octal_eq (p := 7) (n := m) (by omega)] at heq
  rcases Nat.lt_or_ge m (256 * n) with hwrap | hfits
  · -- the sum is negative, and as an unsigned number it has eleven digits
    obtain ⟨s, hs⟩ : ∃ s, s = u32 ((m : ℤ) - 256 * (n : ℕ)) := ⟨_, rfl⟩
    have hrange : 3 * 8 ^ 10 ≤ s ∧ s < 8 ^ 10 * 4 := by
      rw [hs, u32]
      omega
    have hlen : (Nat.digits 8 s).length = 11 := by
      refine Nat.le_antisymm ((Nat.digits_length_le_iff (by omega) s).mpr (by omega)) ?_
      exact (Nat.lt_digits_length_iff (by omega) s).mpr (by omega)
    have hfirst : s / 8 ^ 10 % 8 = 3 := by omega
    have hzero : m / 8 ^ 6 % 8 = 0 := by omega
    rw [← hs, octal, hlen, Nat.max_eq_right (by omega), octalDigits_eq_cons, octalDigits_eq_cons 6,
      hfirst, hzero, snprintf] at heq
    exact absurd (List.cons.inj heq).1 (by decide)
  · have hval : u32 ((m : ℤ) - 256 * (n : ℕ)) = m - 256 * n := by
      rw [u32]
      omega
    rw [hval, snprintf_octal (k := 7) (by omega)] at heq
    have hback := congrArg strtol8 (List.append_cancel_right heq)
    rw [strtol8_octalDigits (by omega), strtol8_octalDigits (by omega),
      Nat.mod_eq_of_lt (by omega), Nat.mod_eq_of_lt (by omega)] at hback
    omega

/-- **When the checksum is right**: as long as every byte of the header is below 128. -/
theorem checksumRight_iff (b : ℕ → UInt8) : ChecksumRight (storeChecksum b) ↔
    ∀ i < END, ¬ InChecksum i → (b i).toNat < 128 := by
  constructor
  · intro h i hi hchk
    by_contra hhigh
    exact not_checksumRight_of_high hi hchk (Nat.not_lt.mp hhigh) h
  · exact checksumRight_of_low

end Checksum

/-- A directory whose name begins as many Japanese names do in Shift-JIS. -/
def japaneseVisit : Visit Unit :=
  { longVisit with inPath := mountPoint ++ [slash, 0x83, 0x65] }

/-- **A name with a byte of 128 and more**: the checksum of its header is wrong. -/
theorem japanese_checksum_wrong : ∃ (io : IomanX Unit) (b : ℕ → UInt8),
    japaneseVisit.header io = some (window (storeChecksum b) 0 END) ∧
      ¬ ChecksumRight (storeChecksum b) := by
  obtain ⟨io, hio⟩ : ∃ io : IomanX Unit, io = fun _ w => ({}, w) := ⟨_, rfl⟩
  obtain ⟨b₀, hb₀⟩ : ∃ b₀, b₀ = overlay headerStart NAME (ascii ['A', '/'] ++ [0x83, 0x65]) :=
    ⟨_, rfl⟩
  have hstored : japaneseVisit.stored = some b₀ := by
    rw [hb₀]
    rfl
  refine ⟨io, storeType '5' (storeStat fioSIfdir {} b₀), ?_, ?_⟩
  · rw [Visit.header, hstored]
    rfl
  · have hbyte : window (storeType '5' (storeStat fioSIfdir {} b₀)) 2 1 = [0x83] := by
      rw [window_storeType _ (by decide), window_storeStat _ _ (by decide) (by decide), hb₀]
      rfl
    have hvalue : storeType '5' (storeStat fioSIfdir {} b₀) 2 = 0x83 := by
      simpa [window, live] using hbyte
    refine not_checksumRight_of_high (i := 2) (by decide) (by decide) ?_
    rw [hvalue]
    decide

end PfsShell.Pfs2tar
