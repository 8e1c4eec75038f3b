/-
# Where a restore reads its headers

The loop of `restore_from_tar` leaves each entry in its own way: it seeks over the content, or
reads it, or neither.  `nextHeader` is one turn of the loop, so the streams it reaches are those
a header is read from.

* `restore_aligned`: every header is read at the start of an entry if and only if each entry of
  more than `2 ^ 32 - 512` bytes is a file that is created and read.  The other ways round the
  size up to blocks in `unsigned int`, and a larger one comes out as none;
* `restore_misaligned`: the entry of another partition, of `2 ^ 32 - 1` bytes.
-/
import PfsShell.Lib.Run
import PfsShell.Pfs2tar.Format
import PfsShell.Pfs2tar.Restore

namespace PfsShell.Pfs2tar

open PfsShell.Lib

variable {σ : Type} (io : IomanX σ) (uninit : Uninit) (overwriteMode : Bool)
  (mountPath prefixPath : CStr)

/-! ## 1. The turns of the loop -/

/-- One turn of `restore_from_tar`'s loop, from one header to the next. -/
def nextHeader : List UInt8 × σ × List Message → Option (List UInt8 × σ × List Message)
  | (tar, s) =>
    if tar.length < 512 then none
    else if tar.head? = some 0 then none
    else
      let (s, skip) := restoreEntry io uninit overwriteMode mountPath prefixPath (tar.take 512)
        (tar.drop 512) s
      some ((tar.drop 512).drop skip, s)

/-- The streams and states the loop comes to. -/
def TurnsTo : List UInt8 × σ × List Message → List UInt8 × σ × List Message → Prop :=
  Relation.ReflTransGen fun q q' =>
    nextHeader io uninit overwriteMode mountPath prefixPath q = some q'

/-- The loop is its turns. -/
theorem restoreLoop_eq_nextHeader (tar : List UInt8) (s : σ × List Message) :
    restoreLoop io uninit overwriteMode mountPath prefixPath tar s =
      match nextHeader io uninit overwriteMode mountPath prefixPath (tar, s) with
      | none => s
      | some (tar', s') =>
        restoreLoop io uninit overwriteMode mountPath prefixPath tar' s' := by
  rw [restoreLoop, nextHeader]
  split
  · rfl
  · split
    · rfl
    · rfl

/-- The stream is at the start of an entry, or at the end of the archive. -/
def AtEntry (entries : List Entry) (tail tar : List UInt8) : Prop :=
  ∃ done todo, entries = done ++ todo ∧ tar = todo.flatMap Entry.bytes ++ tail

/-- The loop ends here. -/
def Ended (tail : List UInt8) : Prop := tail.length < 512 ∨ tail.head? = some 0

/-! ## 2. What is read of an entry -/

/-- The entry is new: it is of this partition, not its root, and not there yet. -/
def IsNew (header : List UInt8) (w : σ) : Prop :=
  prefixPath <+: nameField header ∧ (nameField header).drop prefixPath.length ≠ [] ∧
    (lookedUp io overwriteMode (restoredPath mountPath prefixPath (nameField header)) w).1 = false

/-- The entry is a new file, and can be created. -/
def Creates (e : Entry) (s : σ × List Message) : Prop :=
  let fullPath := restoredPath mountPath prefixPath (nameField e.header)
  let w := ensureParentDirsExist io fullPath (lookedUp io overwriteMode fullPath s.1).2
  IsNew io overwriteMode mountPath prefixPath e.header s.1 ∧
    (typeField e.header = 48 ∨ typeField e.header = 0) ∧
    0 ≤ (io (.open fullPath (fioOWronly ||| fioOCreat ||| fioOTrunc) 0o666) w).1.ret

/-- What restoring an entry does, besides moving the stream. -/
def entryStep (e : Entry) (s : σ × List Message) : Option (σ × List Message) :=
  some (restoreEntry io uninit overwriteMode mountPath prefixPath e.header e.blocks s).1

/-- The size can be rounded up to blocks, or the file is created and read. -/
def Passed (e : Entry) (s : σ × List Message) : Prop :=
  sizeField e.header ≤ 4294967296 - 512 ∨
    Creates io overwriteMode mountPath prefixPath e s

section Turns

variable {io} {uninit} {overwriteMode} {mountPath} {prefixPath}

/-- The copy reads no further than the content. -/
theorem copyLoop_append {fd : ℤ} (remaining : ℕ) : ∀ {content : List UInt8}
    (rest : List UInt8) (w : σ), remaining ≤ content.length →
    copyLoop io uninit fd remaining (content ++ rest) w =
      copyLoop io uninit fd remaining content w := by
  induction remaining using Nat.strong_induction_on with
  | _ remaining ih =>
    intro content rest w hlen
    rw [copyLoop, copyLoop.eq_def io uninit fd remaining content]
    by_cases hzero : remaining = 0
    · rw [dif_pos hzero, dif_pos hzero]
    · obtain ⟨chunk, hchunk⟩ : ∃ chunk, chunk = if 512 < remaining then 512 else remaining :=
        ⟨_, rfl⟩
      have hle : chunk ≤ remaining ∧ 0 < chunk := by
        rw [hchunk]
        split <;> omega
      rw [dif_neg hzero, dif_neg hzero]
      simp only [← hchunk]
      rw [List.take_append_of_le_length (by omega), List.drop_append_of_le_length (by omega)]
      exact ih _ (by omega) rest _ (by rw [List.length_drop]; omega)

/-- Nor does the rest of what is done for an entry. -/
theorem restoreEntry_append {e : Entry} (h : e.Restorable) (rest : List UInt8)
    (s : σ × List Message) :
    restoreEntry io uninit overwriteMode mountPath prefixPath e.header (e.blocks ++ rest) s =
      restoreEntry io uninit overwriteMode mountPath prefixPath e.header e.blocks s := by
  have hsize : sizeField e.header ≤ e.blocks.length := by
    rw [h.blocks_length]
    omega
  have hfile : ∀ name fullPath type posixMode iomanxMode mtime s,
      restoreFile io uninit name fullPath type (sizeField e.header) posixMode iomanxMode mtime
          (e.blocks ++ rest) s =
        restoreFile io uninit name fullPath type (sizeField e.header) posixMode iomanxMode mtime
          e.blocks s := by
    intro name fullPath type posixMode iomanxMode mtime s
    simp only [restoreFile, copyLoop_append _ rest _ hsize]
  rw [restoreEntry_eq, restoreEntry_eq]
  simp only [restoreNew, hfile]

variable (io uninit overwriteMode mountPath prefixPath) in
/-- How far the stream is moved for an entry. -/
theorem restoreEntry_skip {e : Entry} (h : e.Restorable) (s : σ × List Message) :
    (Creates io overwriteMode mountPath prefixPath e s →
      (restoreEntry io uninit overwriteMode mountPath prefixPath e.header e.blocks s).2 =
        e.blocks.length) ∧
    (¬ Creates io overwriteMode mountPath prefixPath e s →
      (restoreEntry io uninit overwriteMode mountPath prefixPath e.header e.blocks s).2 =
        skipSize (sizeField e.header)) := by
  obtain ⟨w, said⟩ := s
  -- a directory and a link have no content
  have hbare : typeField e.header = 53 ∨ typeField e.header = 50 →
      0 = skipSize (sizeField e.header) := by
    intro ht
    have hzero : sizeField e.header = 0 := by
      have := h.sizeField
      have := h.bare ht
      omega
    rw [hzero]
    rfl
  have hnotFile : typeField e.header = 53 ∨ typeField e.header = 50 →
      ¬ Creates io overwriteMode mountPath prefixPath e (w, said) := by
    intro ht hc
    have := hc.2.1
    rcases ht with ht | ht
    · simp [ht] at this
    · simp [ht] at this
  rw [restoreEntry_eq, if_neg h.name]
  by_cases hpre : ¬prefixPath <+: nameField e.header ∨
      (nameField e.header).drop prefixPath.length = []
  · rw [if_pos hpre]
    refine ⟨fun hc => ?_, fun _ => rfl⟩
    rcases hpre with hpre | hroot
    · exact absurd hc.1.1 hpre
    · exact absurd hroot hc.1.2.1
  rw [if_neg hpre]
  rw [not_or, not_not] at hpre
  obtain ⟨found, w₁, hlook⟩ : ∃ found w₁, lookedUp io overwriteMode
      (restoredPath mountPath prefixPath (nameField e.header)) w = (found, w₁) := ⟨_, _, rfl⟩
  dsimp only
  rw [hlook]
  cases found with
  | true =>
    refine ⟨fun hc => ?_, fun _ => rfl⟩
    have := hc.1.2.2
    rw [hlook] at this
    cases this
  | false =>
    have hnew : IsNew io overwriteMode mountPath prefixPath e.header w :=
      ⟨hpre.1, hpre.2, by rw [hlook]⟩
    rw [if_neg Bool.false_ne_true, restoreNew]
    split
    · rename_i ht
      exact ⟨fun hc => absurd hc (hnotFile (.inl ht)), fun _ => hbare (.inl ht)⟩
    · split
      · rename_i ht
        refine ⟨fun hc => absurd hc (hnotFile (.inr ht)), fun _ => ?_⟩
        rw [← hbare (.inr ht)]
        simp only [restoreSymlink]
        split <;> rfl
      · split
        · rename_i ht
          have hcreates : Creates io overwriteMode mountPath prefixPath e (w, said) ↔
              0 ≤ (io (.open (restoredPath mountPath prefixPath (nameField e.header))
                (fioOWronly ||| fioOCreat ||| fioOTrunc) 0o666) (ensureParentDirsExist io
                  (restoredPath mountPath prefixPath (nameField e.header)) w₁)).1.ret := by
            simp only [Creates, hlook]
            exact ⟨fun hc => hc.2.2, fun hret => ⟨hnew, ht, hret⟩⟩
          rw [hcreates]
          have hblocks := h.blocks_length
          simp only [restoreFile]
          split
          · exact ⟨fun hc => by omega, fun _ => rfl⟩
          · refine ⟨fun _ => ?_, fun hc => by omega⟩
            simp only
            split <;> omega
        · rename_i ht
          exact ⟨fun hc => absurd hc.2.1 ht, fun _ => rfl⟩

/-- Rounding up to blocks in `unsigned int`. -/
theorem skipSize_cases {size : ℕ} (h : size < 4294967296) :
    (size ≤ 4294967296 - 512 → skipSize size = (size + 511) / 512 * 512) ∧
    (¬ size ≤ 4294967296 - 512 → skipSize size = 0) := by
  have hval : skipSize size = ((size + 511 : ℕ) % 4294967296) / 512 * 512 := by
    have hcast : u32 ((size + 511 : ℕ) : ℤ) = (size + 511) % 4294967296 := by
      rw [u32]
      omega
    rw [skipSize, hcast]
  rw [hval]
  omega

variable (io uninit overwriteMode mountPath prefixPath) in
/-- **One turn of the loop** from the start of an entry: it ends behind the entry, unless the size
of the entry is too large to be rounded up and the entry is not read. -/
theorem nextHeader_entry {e : Entry} (h : e.Restorable) (rest : List UInt8)
    (s : σ × List Message) : ∃ skip s', entryStep io uninit overwriteMode mountPath prefixPath e s =
        some s' ∧
      nextHeader io uninit overwriteMode mountPath prefixPath (e.bytes ++ rest, s) =
        some ((e.blocks ++ rest).drop skip, s') ∧
      (Passed io overwriteMode mountPath prefixPath e s → skip = e.blocks.length) ∧
      (¬ Passed io overwriteMode mountPath prefixPath e s → skip = 0 ∧ e.blocks ≠ []) := by
  obtain ⟨hcreates, hskips⟩ := restoreEntry_skip io uninit overwriteMode
    mountPath prefixPath h s
  have hsize : sizeField e.header < 4294967296 := by
    have := h.sizeField
    have := h.size
    omega
  obtain ⟨hfits, hwraps⟩ := skipSize_cases hsize
  have hlen : ¬ (e.bytes ++ rest).length < 512 := by
    rw [List.length_append, e.length_bytes]
    omega
  refine ⟨(restoreEntry io uninit overwriteMode mountPath prefixPath e.header e.blocks s).2, _, rfl,
    ?_, fun hp => ?_, fun hp => ?_⟩
  · simp only [nextHeader, if_neg hlen, if_neg (h.head rest), Entry.take_bytes, Entry.drop_bytes,
      restoreEntry_append h]
  · by_cases hc : Creates io overwriteMode mountPath prefixPath e s
    · exact hcreates hc
    · rw [hskips hc, hfits (hp.resolve_right hc), h.blocks_length]
  · rw [Passed, not_or] at hp
    refine ⟨by rw [hskips hp.2, hwraps hp.1], List.ne_nil_of_length_pos ?_⟩
    rw [h.blocks_length]
    omega

/-! ## 3. The whole archive -/

/-- A turn makes the stream shorter. -/
theorem TurnsTo.length_le {q q' : List UInt8 × σ × List Message}
    (h : TurnsTo io uninit overwriteMode mountPath prefixPath q q') :
    q'.1.length ≤ q.1.length := by
  induction h with
  | refl => exact le_rfl
  | @tail q₁ q₂ _ hturn ih =>
    refine le_trans ?_ ih
    obtain ⟨tar, s⟩ := q₁
    simp only [nextHeader] at hturn
    split at hturn
    · cases hturn
    · split at hturn
      · cases hturn
      · rw [← Option.some.inj hturn]
        simp only [List.length_drop]
        omega

theorem AtEntry.cons {e : Entry} {entries : List Entry} {tail tar : List UInt8}
    (h : AtEntry entries tail tar) : AtEntry (e :: entries) tail tar := by
  obtain ⟨done, todo, rfl, htar⟩ := h
  exact ⟨e :: done, todo, rfl, htar⟩

/-- A stream behind the first entry's header is at the start of a later entry. -/
theorem AtEntry.of_cons {e : Entry} {entries : List Entry} {tail tar : List UInt8}
    (h : AtEntry (e :: entries) tail tar)
    (hlen : tar.length < ((e :: entries).flatMap Entry.bytes ++ tail).length) :
    AtEntry entries tail tar := by
  obtain ⟨done, todo, hsplit, rfl⟩ := h
  cases done with
  | nil =>
    rw [List.nil_append] at hsplit
    rw [hsplit] at hlen
    exact absurd hlen (lt_irrefl _)
  | cons d done =>
    obtain ⟨-, rfl⟩ := List.cons.inj hsplit
    exact ⟨done, todo, rfl, rfl⟩

theorem AtEntry.length_le {entries : List Entry} {tail tar : List UInt8}
    (h : AtEntry entries tail tar) :
    tar.length ≤ (entries.flatMap Entry.bytes ++ tail).length := by
  obtain ⟨done, todo, rfl, rfl⟩ := h
  simp only [List.flatMap_append, List.length_append]
  omega

/-- **When a restore stays aligned.**  Every header is read at the start of an entry if and only if
each entry, in the state its turn comes in, has a size that can be rounded up to blocks or is a file
that is created. -/
theorem restore_aligned {entries : List Entry} (hentries : ∀ e ∈ entries, e.Restorable)
    {tail : List UInt8} (hend : Ended tail) (s : σ × List Message) :
    (∀ q, TurnsTo io uninit overwriteMode mountPath prefixPath
        (entries.flatMap Entry.bytes ++ tail, s) q → AtEntry entries tail q.1) ↔
      Along (entryStep io uninit overwriteMode mountPath prefixPath)
        (Passed io overwriteMode mountPath prefixPath) entries s := by
  induction entries generalizing s with
  | nil =>
    refine iff_of_true (fun q hq => ?_) trivial
    have hstop : nextHeader io uninit overwriteMode mountPath prefixPath (tail, s) = none := by
      rw [nextHeader]
      rcases hend with hend | hend
      · rw [if_pos hend]
      · rw [if_pos hend]
        split <;> rfl
    rcases Relation.ReflTransGen.cases_head hq with rfl | ⟨q₁, hturn, -⟩
    · exact ⟨[], [], rfl, rfl⟩
    · rw [List.flatMap_nil, List.nil_append, hstop] at hturn
      cases hturn
  | cons e entries ih =>
    have he := hentries e List.mem_cons_self
    obtain ⟨skip, s', hs', hturn, hpassed, hnot⟩ := nextHeader_entry io uninit
      overwriteMode mountPath prefixPath he
      (entries.flatMap Entry.bytes ++ tail) s
    have hrest := ih (fun x hx => hentries x (List.mem_cons_of_mem _ hx)) s'
    rw [← List.append_assoc, ← List.flatMap_cons] at hturn
    have hall : (∀ t, entryStep io uninit overwriteMode mountPath prefixPath e s = some t →
        Along (entryStep io uninit overwriteMode mountPath prefixPath)
          (Passed io overwriteMode mountPath prefixPath) entries t) ↔
        Along (entryStep io uninit overwriteMode mountPath prefixPath)
          (Passed io overwriteMode mountPath prefixPath) entries s' := by
      rw [hs']
      simp
    rw [Along, hall, ← hrest]
    have hfull : ((e :: entries).flatMap Entry.bytes ++ tail).length =
        512 + e.blocks.length + (entries.flatMap Entry.bytes ++ tail).length := by
      rw [List.flatMap_cons, List.append_assoc, List.length_append, e.length_bytes]
    by_cases hp : Passed io overwriteMode mountPath prefixPath e s
    · rw [hpassed hp, List.drop_left' rfl] at hturn
      constructor
      · refine fun h => ⟨hp, fun q hq => (h q (.head hturn hq)).of_cons ?_⟩
        have := hq.length_le
        simp only at this
        omega
      · rintro ⟨-, h⟩ q hq
        rcases Relation.ReflTransGen.cases_head hq with rfl | ⟨q₁, hq₁, hq⟩
        · exact ⟨[], e :: entries, rfl, rfl⟩
        · obtain rfl := Option.some.inj (hturn.symm.trans hq₁)
          exact (h q hq).cons
    · obtain ⟨rfl, hne⟩ := hnot hp
      refine iff_of_false (fun h => ?_) fun h => hp h.1
      -- the next header is read from the content of this entry
      have hlost := h _ (.single hturn)
      rw [List.drop_zero] at hlost
      have hshort : (e.blocks ++ (entries.flatMap Entry.bytes ++ tail)).length <
          ((e :: entries).flatMap Entry.bytes ++ tail).length := by
        rw [hfull, List.length_append]
        omega
      have hle := (hlost.of_cons hshort).length_le
      have := List.length_pos_of_ne_nil hne
      rw [List.length_append] at hle
      omega

end Turns

/-! ## 4. An entry of another partition -/

/-- The header of a file of the partition `B`, with the given number as its size. -/
def foreignHeader (size : ℕ) : List UInt8 :=
  (ascii ['B', '/', 'x'] ++ List.replicate 121 0) ++
    (octalDigits 11 size ++ 0 :: List.replicate 376 0)

theorem octalSize_foreignHeader {size : ℕ} (h : size < 8 ^ 11) :
    octalSize (foreignHeader size) = size := by
  have hlen : (ascii ['B', '/', 'x'] ++ List.replicate 121 0).length = SIZE := by
    rw [List.length_append, List.length_replicate]
    rfl
  have hfield : field (foreignHeader size) SIZE 12 = octalDigits 11 size := by
    have htake : (octalDigits 11 size ++ 0 :: List.replicate 376 0).take 12 =
        octalDigits 11 size ++ [0] := by
      rw [List.take_append, length_octalDigits,
        List.take_of_length_le (by rw [length_octalDigits]; omega)]
      rfl
    rw [field, foreignHeader, List.drop_left' hlen, htake,
      cutAt_append_cons (zero_notMem_octalDigits 11 size)]
  rw [octalSize, hfield, strtol8_octalDigits (by decide), Nat.mod_eq_of_lt h]

/-- A file of the partition `B`, full of zeros. -/
def foreignFile (size : ℕ) (h : size < 8 ^ 11) : Entry where
  header := foreignHeader size
  blocks := List.replicate (512 * ((size + 511) / 512)) 0
  header_length := by
    simp only [foreignHeader, ascii, List.length_append, List.length_replicate, List.length_map,
      List.length_cons, List.length_nil, length_octalDigits]
  blocks_length := by
    rw [octalSize_foreignHeader h, List.length_replicate]
    omega

theorem nameField_foreignHeader (size : ℕ) :
    nameField (foreignHeader size) = ascii ['B', '/', 'x'] := by
  have htake : ((foreignHeader size).drop NAME).take 100 =
      ascii ['B', '/', 'x'] ++ 0 :: List.replicate 96 0 := by
    rw [NAME, List.drop_zero, foreignHeader, List.append_assoc, List.take_append,
      List.take_of_length_le (by decide), List.take_append_of_le_length (by
        rw [List.length_replicate]
        exact (by decide : 100 - 3 ≤ 121))]
    rfl
  rw [nameField, field, htake, cutAt_append_cons (by decide)]

theorem restorable_foreignFile {size : ℕ} (h : size < 4294967296) (h' : size < 8 ^ 11) :
    (foreignFile size h').Restorable where
  name := by
    rw [foreignFile, nameField_foreignHeader]
    decide
  size := by
    rw [foreignFile, octalSize_foreignHeader h']
    omega
  bare := by
    intro ht
    have htype : typeField (foreignHeader size) = 0 := by
      have hlen : (ascii ['B', '/', 'x'] ++ List.replicate 121 0).length = 124 := by
        rw [List.length_append, List.length_replicate]
        rfl
      have hle : (octalDigits 11 size).length ≤ TYPE - 124 := by
        rw [length_octalDigits]
        decide
      rw [typeField, foreignHeader, List.getElem?_append_right (by rw [hlen]; decide), hlen,
        List.getElem?_append_right hle, length_octalDigits]
      rfl
    rw [foreignFile, htype] at ht
    rcases ht with ht | ht <;> cases ht

/-- An iomanX on which every call returns 0. -/
def allZero : IomanX Unit := fun _ w => ({}, w)

theorem sizeField_foreignFile (size : ℕ) (h : size < 4294967296) (h' : size < 8 ^ 11) :
    sizeField (foreignFile size h').header = size := by
  have hsize := (restorable_foreignFile h h').sizeField
  have hoctal : octalSize (foreignFile size h').header = size := octalSize_foreignHeader h'
  omega

/-- A file of five bytes is passed over. -/
theorem restore_aligned_small : ∃ e : Entry, octalSize e.header = 5 ∧
    ∀ q, TurnsTo allZero {} false (mountPoint ++ [slash]) (ascii ['A', '/'])
      ([e].flatMap Entry.bytes ++ zeros, (), []) q → AtEntry [e] zeros q.1 := by
  obtain ⟨e, he⟩ : ∃ e, e = foreignFile 5 (by decide) := ⟨_, rfl⟩
  have hrestorable : e.Restorable := he ▸ restorable_foreignFile (by decide) (by decide)
  have hsize : sizeField e.header = 5 := he ▸ sizeField_foreignFile 5 (by decide) (by decide)
  refine ⟨e, he ▸ octalSize_foreignHeader (by decide),
    (restore_aligned (fun x hx => ?_) (Or.inr rfl) ((), [])).mpr
      ⟨Or.inl ?_, fun _ _ => trivial⟩⟩
  · rwa [List.mem_singleton.mp hx]
  · rw [hsize]
    decide

/-- **A file of `2 ^ 32 - 1` bytes of another partition** is not passed over: the next header is
read from its content. -/
theorem restore_misaligned : ∃ e : Entry, e.Restorable ∧ octalSize e.header = 4294967295 ∧
    ∃ q, TurnsTo allZero {} false (mountPoint ++ [slash]) (ascii ['A', '/'])
      ([e].flatMap Entry.bytes ++ zeros, (), []) q ∧ ¬ AtEntry [e] zeros q.1 := by
  obtain ⟨e, he⟩ : ∃ e, e = foreignFile 4294967295 (by decide) := ⟨_, rfl⟩
  have hrestorable : e.Restorable := he ▸ restorable_foreignFile (by decide) (by decide)
  have hsize : sizeField e.header = 4294967295 :=
    he ▸ sizeField_foreignFile 4294967295 (by decide) (by decide)
  refine ⟨e, hrestorable, he ▸ octalSize_foreignHeader (by decide), ?_⟩
  obtain ⟨skip, s', -, hturn, -, hnot⟩ := nextHeader_entry allZero {} false
    (mountPoint ++ [slash]) (ascii ['A', '/'])
    hrestorable zeros ((), [])
  have hforeign : ¬ ascii ['A', '/'] <+: nameField e.header := by
    have hname : nameField e.header = ascii ['B', '/', 'x'] := he ▸ nameField_foreignHeader _
    rw [hname]
    decide
  obtain ⟨rfl, hne⟩ := hnot fun hp => by
    rcases hp with hp | hp
    · rw [hsize] at hp
      exact absurd hp (by decide)
    · exact hforeign hp.1.1
  have harchive : [e].flatMap Entry.bytes ++ zeros = e.bytes ++ zeros := by simp
  refine ⟨_, .single (by rw [harchive]; exact hturn), fun hat => ?_⟩
  -- the stream is longer than what is behind the entry
  rw [List.drop_zero] at hat
  have hlast := hat.of_cons (by
    rw [harchive, List.length_append, List.length_append, e.length_bytes]
    omega)
  have hle := hlast.length_le
  have := List.length_pos_of_ne_nil hne
  rw [List.length_append] at hle
  simp only [List.flatMap_nil, List.nil_append] at hle
  omega

end PfsShell.Pfs2tar
