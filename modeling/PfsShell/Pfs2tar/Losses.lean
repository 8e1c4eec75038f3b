/-
# What a backup loses

`tar_part` drops what `wrapped_ftw` returns, and `main` what `tar_part` returns: a backup whose walk
was given up looks like any other.  `NoLoss` says of a backup that every entry of the selected
partitions is in the archive, or was reported by a message that names it or a directory above it.

* `backup_noLoss`: nothing is lost without a message if no `getstat` or `dopen` fails in the run, no
  `open` or `read` fails that has something to deliver, every path fits the buffer of the walk, and
  every name and every link target fits its fields in the header;
* `backup_loses`: a `getstat` that fails loses the entry, and nothing is printed.
-/
import PfsShell.Pfs2tar.Archive
import PfsShell.Pfs2tar.MemFs

namespace PfsShell.Pfs2tar

open PfsShell.Lib

/-! ## 1. What an archive holds -/

/-- The name in a header, in its two parts. -/
def entryName (header : List UInt8) : CStr := field header NAME2 155 ++ nameField header

/-- The archive's entry is the one of the file system, with all that is in it. -/
structure Entry.Holds (e : Entry) (name : CStr) (i : Inode) : Prop where
  name : entryName e.header = name
  type : typeField e.header = i.body.type
  file : ∀ bytes, i.body = .file bytes →
    octalSize e.header = bytes.length ∧ e.blocks.take bytes.length = bytes
  link : ∀ target, i.body = .link target → linkField e.header = target

/-- The message names the entry at `c`, or a directory it is in, or the partition. -/
def Message.Names (m : Message) (P : CStr) (c : List CStr) : Prop :=
  (∃ d, d <+: c ∧ (m = .tooLarge (pfsPath d) ∨ m = .pathTooLong (pfsPath d))) ∨
    ∃ result, m = .mountFailed (hdd ++ P) result

/-- **No silent loss**: every entry of the selected partitions is in the archive, or a message
names it. -/
def NoLoss (V : World) (arg : Option CStr) (t : Tar) : Prop :=
  ∃ entries : List Entry, t.tarfile = entries.flatMap Entry.bytes ++ zeros ∧
    ∀ de ∈ V.hdd, selected arg de = true → ∀ c i, V.tree de.name c = some i →
      (∃ e ∈ entries, e.Holds (archName de.name c) i) ∨ ∃ m ∈ t.said, m.Names de.name c

/-- The entry fits a header: its name's last part and its link target are no longer than their
fields.  A file of 4 GiB or more needs none. -/
def Storable (name : CStr) (i : Inode) : Prop :=
  i.tooLarge = true ∨ ((namePart name).length ≤ 100 ∧
    ∀ target, i.body = .link target → target.length ≤ 100)

/-- Every path of the selected partitions fits the buffer of the walk, and every entry a header. -/
def AllStorable (V : World) (arg : Option CStr) : Prop :=
  ∀ de ∈ V.hdd, selected arg de = true → Fits (V.tree de.name) [] ∧
    ∀ c i, V.tree de.name c = some i → Storable (archName de.name c) i

/-! ## 2. One entry -/

theorem take_pad (bytes : List UInt8) : (pad bytes).take bytes.length = bytes := by
  rw [pad, List.take_left' rfl]

/-- **What `tar_c_file` writes holds the entry.** -/
theorem holds_entryBytes {name : CStr} {i : Inode} (hname : NameFits name) (hnul : 0 ∉ name)
    (hsize : i.body.size < 4294967296)
    (hlink : ∀ target, i.body = .link target → target.length ≤ 100 ∧ 0 ∉ target) :
    ∃ e : Entry, entryBytes name i = e.bytes ∧ e.Holds name i := by
  obtain ⟨header, hheader⟩ : ∃ header, header = window (entryHeader name i) 0 END := ⟨_, rfl⟩
  have hoctal : octalSize header = i.body.size := by
    rw [hheader]
    exact octalSize_entry hname hsize
  have hblocks : (i.body.content.length : ℤ) = 512 * ((octalSize header + 511) / 512) := by
    rw [hoctal]
    cases i.body with
    | file bytes =>
      rw [Body.content, Body.size, length_pad]
      omega
    | dir | link _ =>
      rw [Body.content, Body.size, List.length_nil]
      omega
  have hlen : header.length = 512 := by rw [hheader, length_window, END]
  refine ⟨⟨header, i.body.content, hlen, hblocks⟩, by rw [entryBytes, ← hheader, Entry.bytes], ?_⟩
  refine ⟨?_, ?_, fun bytes hbody => ⟨?_, ?_⟩, fun target hbody => ?_⟩
  · have hpre := prefixPart_entry (i := i) hname hnul
    have hpart := namePart_entry (i := i) hname hnul
    rw [← hheader] at hpre hpart
    rw [entryName, hpre, hpart, (storePath_eq hname.stored).2.2]
  · simp only [hheader, typeField_entry]
  · simp only [hoctal, hbody, Body.size]
  · simp only [hbody, Body.content, take_pad]
  · obtain ⟨hlen, hnul'⟩ := hlink target hbody
    simp only [hheader, linkField_entry hname hbody hlen hnul']

/-! ## 3. The backup -/

section Backup

variable {V : World} {arg : Option CStr} {B : List PartEntries} {t : Tar}

/-- The walk of a selected partition. -/
theorem Backed.walk {hdds : List IoxDirent} (hB : Backed V arg hdds B) {de : IoxDirent}
    (hde : de ∈ hdds) (hsel : selected arg de = true) : ∃ b ∈ B, b.1 = de.name := by
  have hmem : de.name ∈ B.map Prod.fst := by
    rw [hB.parts]
    exact mem_selected_names.mpr ⟨de, hde, hsel, rfl⟩
  exact List.mem_map.mp hmem

/-- **Walks of which nothing is lost** fill an archive that has lost nothing. -/
theorem Backed.noLoss (hB : Backed V arg V.hdd B) (hdisk : V.Disk arg)
    (hstorable : AllStorable V arg)
    (htar : t.tarfile = B.flatMap (fun b => b.small.bytes) ++ zeros)
    (hsaid : t.said = B.flatMap PartEntries.said) : NoLoss V arg t := by
  -- an entry of a walk, with its name
  have hentry : ∀ b ∈ B, ∀ x ∈ b.small.2, ∃ e : Entry,
      entryBytes (archName b.1 x.1) x.2 = e.bytes ∧ e.Holds (archName b.1 x.1) x.2 := by
    intro b hb x hx
    obtain ⟨de, hde, hsel, hname⟩ := hB.mem hb
    obtain ⟨r, path, hwalked⟩ := hB.walked b hb
    obtain ⟨hx, hsmall⟩ := List.mem_filter.mp hx
    have hnot : ¬ x.2.tooLarge = true := by simpa using hsmall
    have hfound := (hwalked.found x hx).1
    rw [← hname] at hfound ⊢
    obtain ⟨hpart, hlink⟩ := ((hstorable de hde hsel).2 x.1 x.2 hfound).resolve_left hnot
    obtain ⟨hlen, hnul⟩ := hdisk.name de hde hsel
    refine holds_entryBytes ⟨storePath_archName hlen x.1, hpart⟩
      (zero_notMem_archName hnul ((hdisk.wf de hde hsel).valid (by rw [hfound]; simp)))
      (by simpa [Inode.tooLarge] using hnot) fun target hbody => ⟨hlink target hbody, ?_⟩
    exact hdisk.target de hde hsel x.1 x.2 target hfound hbody
  -- the entries of one walk, and of all of them
  obtain ⟨es, hes, hall⟩ := exists_entries (f := fun b => b.small.bytes)
    (Q := fun b es => ∀ x ∈ b.small.2, ∃ e ∈ es, e.Holds (archName b.1 x.1) x.2)
    (fun b es es' hsub h x hx => (h x hx).imp fun e he => ⟨hsub he.1, he.2⟩) B fun b hb =>
      exists_entries (Q := fun x es => ∃ e ∈ es, e.Holds (archName b.1 x.1) x.2)
        (fun x es es' hsub h => h.imp fun e he => ⟨hsub he.1, he.2⟩) b.small.2 fun x hx => by
          obtain ⟨e, he, hholds⟩ := hentry b hb x hx
          exact ⟨[e], by rw [List.flatMap_singleton]; exact he, e, List.mem_singleton_self e,
            hholds⟩
  refine ⟨es, by rw [htar, hes], fun de hde hsel c i hi => ?_⟩
  obtain ⟨b, hb, hname⟩ := hB.walk hde hsel
  obtain ⟨r, path, hwalked⟩ := hB.walked b hb
  rw [hname] at hwalked
  have hx : (c, i) ∈ b.2 := hwalked.complete (hwalked.whole (hstorable de hde hsel).1) c i
    (List.nil_prefix) hi
  by_cases hlarge : i.tooLarge = true
  · right
    refine ⟨.tooLarge (pfsPath c), ?_, .inl ⟨c, List.prefix_refl c, .inl rfl⟩⟩
    rw [hsaid, List.mem_flatMap]
    exact ⟨b, hb, List.mem_map.mpr ⟨(c, i), List.mem_filter.mpr ⟨hx, hlarge⟩, rfl⟩⟩
  · left
    rw [← hname]
    exact hall b hb (c, i) (List.mem_filter.mpr ⟨hx, by simpa using hlarge⟩)

end Backup

/-- **When a backup loses nothing silently.**  A backup ends, whatever fails; and in a run in which
what failed had nothing to deliver, on a disk whose paths and entries fit, it has lost nothing. -/
theorem backup_noLoss {σ : Type} {io : IomanX σ} {view : σ → World} (hfs : PlainFs io view)
    (pattern : ℕ → Option ℕ) (uninit : Uninit) {arg : Option CStr} {w : σ}
    (hdisk : (view w).Disk arg) :
    ∃ n, ∀ fuel, n ≤ fuel → ∃ w' calls t,
      backup (flaky io pattern) uninit arg fuel (w, []) = some ((w', calls), t) ∧
        (Clean view pattern calls → AllStorable (view w) arg → NoLoss (view w) arg t) := by
  obtain ⟨n, hn⟩ := backup_spec (w := (w, [])) (hfs.flaky pattern) uninit hdisk
  refine ⟨n, fun fuel hfuel => ?_⟩
  obtain ⟨⟨w', calls⟩, t, heq, -, hB⟩ := hn fuel hfuel
  refine ⟨w', calls, t, heq, fun hclean hstorable => ?_⟩
  obtain ⟨B, hB, htar, -, hsaid⟩ := hB hclean
  exact hB.noLoss hdisk hstorable htar hsaid

/-- A short name. -/
theorem validName_f : ValidName (ascii ['f']) := ⟨by decide, by decide, by decide, by decide⟩

theorem smallDisk_storable : AllStorable (smallDisk (ascii ['f'])).toWorld none := by
  intro de hde _
  rw [(smallDisk_entry hde).2, (smallDisk_entry hde).1]
  refine ⟨fun d n _ hn => ?_, fun c i hi => .inr ⟨?_, fun target hbody => ?_⟩⟩
  · obtain ⟨rfl, rfl⟩ := smallTree_concat hn
    decide
  · rcases smallTree_ne (by rw [hi]; simp) with rfl | rfl
    · decide
    · decide
  · rcases smallTree_ne (by rw [hi]; simp) with rfl | rfl
    · rw [← Option.some.inj hi] at hbody
      cases hbody
    · rw [← Option.some.inj hi] at hbody
      cases hbody

/-- The second `read` of the file fails, the one at its end. -/
def atEnd : ℕ → Option ℕ := fun n => if n = 10 then some 4 else none

set_option maxRecDepth 8000 in
/-- The call that fails, and where the file stands before it. -/
theorem backup_atEnd (m : ℕ) :
    (backup (flaky memFs atEnd) {} none (m + 30) (smallDisk (ascii ['f']), [])).map (fun r =>
      (r.1.2[10]?).map fun c =>
        (c.1, c.2.mounted, c.2.files 7, (c.2.tree (ascii ['A']) [ascii ['f']]).map Inode.body)) =
      some (some (.read 7 512, some (ascii ['A']), some ([ascii ['f']], 3),
        some (.file [1, 2, 3]))) := rfl

/-- A `read` fails, but all of the file has been read before. -/
theorem backup_noLoss_small : ∃ n, ∀ fuel, n ≤ fuel → ∃ w' calls t,
    backup (flaky memFs atEnd) {} none fuel (smallDisk (ascii ['f']), []) =
        some ((w', calls), t) ∧
      (∃ w, calls[10]? = some (.read 7 512, w) ∧ failure atEnd 10 (.read 7 512) = some 4) ∧
      NoLoss (smallDisk (ascii ['f'])).toWorld none t := by
  obtain ⟨n, hn⟩ := backup_noLoss memFs_plain atEnd {} (smallDisk_ok validName_f).disk
  refine ⟨n + 30, fun fuel hfuel => ?_⟩
  obtain ⟨m, rfl⟩ := Nat.exists_eq_add_of_le' (Nat.le_of_add_left_le hfuel)
  obtain ⟨w', calls, t, heq, hloss⟩ := hn (m + 30) (Nat.le_of_add_right_le hfuel)
  have hcalls := backup_atEnd m
  rw [heq, Option.map_some, Option.some_inj] at hcalls
  obtain ⟨⟨call, w⟩, hlast, hw⟩ := Option.map_eq_some_iff.mp hcalls
  obtain ⟨rfl, hmounted, hfile, hbody⟩ : call = .read 7 512 ∧ w.mounted = some (ascii ['A']) ∧
      w.files 7 = some ([ascii ['f']], 3) ∧
      (w.tree (ascii ['A']) [ascii ['f']]).map Inode.body = some (.file [1, 2, 3]) := by
    simpa only [Prod.mk.injEq] using hw
  obtain ⟨i, hi, hbytes⟩ := Option.map_eq_some_iff.mp hbody
  refine ⟨w', calls, t, heq, ⟨w, hlast, rfl⟩, hloss (fun k call v hv hfail => ?_)
    smallDisk_storable⟩
  -- no other call fails
  obtain rfl : k = 10 := by
    by_contra hk
    simp [failure, atEnd, hk] at hfail
  obtain ⟨rfl, rfl⟩ := Prod.mk.inj (Option.some.inj (hv.symm.trans hlast))
  exact ⟨_, _, _, i, _, hmounted, hfile, hi, hbytes, rfl⟩

/-- The `getstat` of the file fails. -/
def atFile : ℕ → Option ℕ := fun n => if n = 7 then some 4 else none

set_option maxRecDepth 8000 in
/-- The backup then has only one header in it, that of the root. -/
theorem backup_atFile : (backup (flaky memFs atFile) {} none 20 (smallDisk (ascii ['f']), [])).map
    (fun r => (r.2.tarfile.length, r.2.said)) = some (512 + zeros.length, []) := rfl

/-- **A failing `getstat` loses a file**: the backup ends as always, with nothing printed, and the
file is not in the archive. -/
theorem backup_loses : ∃ w' calls t,
    backup (flaky memFs atFile) {} none 20 (smallDisk (ascii ['f']), []) = some ((w', calls), t) ∧
      t.said = [] ∧ ¬ NoLoss (smallDisk (ascii ['f'])).toWorld none t := by
  obtain ⟨⟨⟨w', calls⟩, t⟩, heq, ht⟩ := Option.map_eq_some_iff.mp backup_atFile
  obtain ⟨htar, hsaid⟩ := Prod.mk.inj ht
  simp only at htar hsaid
  refine ⟨w', calls, t, heq, hsaid, fun hloss => ?_⟩
  obtain ⟨entries, hentries, hall⟩ := hloss
  have hbytes : (entries.flatMap Entry.bytes).length = 512 := by
    rw [hentries, List.length_append] at htar
    exact Nat.add_right_cancel htar
  rcases hall { stat := { mode := 0x0100 }, name := ascii ['A'] } List.mem_cons_self rfl
    [ascii ['f']] _ rfl with ⟨e, he, hfile⟩ | ⟨m, hm, -⟩
  · -- the entry of the file alone is longer
    obtain ⟨before, after, rfl⟩ := List.append_of_mem he
    obtain ⟨hsize, -⟩ := hfile.file _ rfl
    have hblocks := e.blocks_length
    rw [hsize] at hblocks
    rw [List.flatMap_append, List.flatMap_cons, List.length_append, List.length_append,
      e.length_bytes] at hbytes
    have hthree : ([1, 2, 3] : List UInt8).length = 3 := rfl
    omega
  · rw [hsaid] at hm
    exact absurd hm List.not_mem_nil

end PfsShell.Pfs2tar
