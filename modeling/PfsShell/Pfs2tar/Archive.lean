/-
# What a backup writes

If nothing is lost, `tar_c_file` writes the bytes of the entry it is called for, or reports a file
of 4 GiB or more (`visits_tar`), so a backup is the entries of one partition after the other, in
the order of the walk, and two blocks of zeros (`backup_spec`).  On a plain file system nothing is
lost (`backup_archives`).

The loop over the partitions is shared with the restore: `eachPart_handles` takes what is done for
one partition as a step, and what is true between two partitions as an invariant.
-/
import PfsShell.Pfs2tar.Format
import PfsShell.Pfs2tar.Walk

namespace PfsShell.Pfs2tar

open PfsShell.Lib

variable {σ τ : Type}

/-! ## 1. One entry -/

section Entry

variable {io : IomanX σ} {view : σ → World} {kept : σ → Prop} {T : Tree} {P : CStr}

/-- **The loop writes the block it has, and then the rest of the file in whole blocks**, if nothing
is lost. -/
theorem blockLoop_file (hfs : BackupFs io view kept) {f : ℤ} (hf : 0 ≤ f) {c : List CStr}
    {i : Inode} {bytes : List UInt8} (hbody : i.body = .file bytes) : ∀ (fuel pos : ℕ)
      (b : ℕ → UInt8) (l : ℤ) (w : σ) (tarfile block : List UInt8),
      (bytes.drop pos).length + 512 ≤ 512 * fuel → (view w).mounted = some P →
      (view w).tree P c = some i → (view w).files f = some (c, pos) →
      window (if l < END then overlay b l.toNat (List.replicate (END - l.toNat) 0) else b) 0 END =
        block →
      ∃ w' tarfile' file, blockLoop io f fuel b l w tarfile = some (w', tarfile') ∧
        view w' = (view w).setFile f (some file) ∧
        (kept w' → kept w ∧ tarfile' = tarfile ++ block ++ pad (bytes.drop pos)) := by
  intro fuel
  induction fuel with
  | zero =>
    intro pos b l w tarfile block hfuel
    omega
  | succ fuel ih =>
    intro pos b l w tarfile block hfuel hm htree hfile hblock
    have hread := hfs.read (n := END) hm hfile htree hbody
    have hkept := hfs.before (c := .read f END) (w := w)
    generalize hio : io (.read f END) w = res at hread hkept
    obtain ⟨reply, w₁⟩ := res
    simp only at hread hkept
    simp only [blockLoop, hio, if_pos hf, hblock]
    rcases hread with ⟨hneg, hlost, hview⟩ | ⟨hret, hdata, hview⟩
    · -- the rest of the file is given up
      rw [if_neg (by omega)]
      refine ⟨w₁, _, (c, pos), rfl, by rw [hview, World.setFile_self _ hfile], fun h => ?_⟩
      exact ⟨hkept h, by rw [hlost h, pad_nil, List.append_nil]⟩
    by_cases hend : bytes.drop pos = []
    · rw [hend] at hret hview
      have hnot : ¬ 0 < reply.ret := by simp [hret]
      rw [if_neg hnot, hend, pad_nil, List.append_nil]
      exact ⟨w₁, _, _, rfl, hview, fun h => ⟨hkept h, rfl⟩⟩
    · have hpos : 0 < (bytes.drop pos).length := List.length_pos_iff.mpr hend
      obtain ⟨data, hdef⟩ : ∃ data, data = (bytes.drop pos).take 512 := ⟨_, rfl⟩
      have hlen : data.length = min 512 (bytes.drop pos).length := by
        rw [hdef, List.length_take]
      rw [END, ← hdef] at hret hdata hview
      rw [if_pos (by omega), hdata, List.take_of_length_le (by rw [END]; omega), hret]
      have hnext : bytes.drop (pos + data.length) = (bytes.drop pos).drop 512 := by
        rw [← List.drop_drop, hdef, drop_length_take]
      obtain ⟨w', tarfile', file, heq, hview', hrest⟩ := ih (pos + data.length) (overlay
          (if l < END then overlay b l.toNat (List.replicate (END - l.toNat) 0) else b) 0 data)
        data.length w₁ (tarfile ++ block) (data ++ List.replicate (512 - data.length) 0)
        (by rw [hnext, List.length_drop]; omega) (by rw [hview]; exact hm)
        (by rw [hview]; exact htree) (by rw [hview, World.files_setFile])
        (window_block _ (by omega))
      refine ⟨w', tarfile', file, heq, by rw [hview', hview, World.setFile_setFile],
        fun h => ?_⟩
      obtain ⟨hk, htar⟩ := hrest h
      refine ⟨hkept hk, ?_⟩
      rw [htar, hnext, pad_step hend, ← hdef]
      simp only [List.append_assoc]

/-- **An entry is written as its bytes** if nothing is lost, and the file system stays as it is. -/
theorem tarBody_spec (hfs : BackupFs io view kept) {fuel : ℕ} (hfuel : 8388609 ≤ fuel)
    (pi : PathInfo) {c : List CStr} {i : Inode} {st : IoxStat} (hst : st.Describes i)
    (hsize : i.body.size < 4294967296) (b : ℕ → UInt8) {w : σ} (t : Tar) (hc : (view w).At P c)
    (htree : (view w).tree P c = some i) :
    ∃ w' t', tarBody io fuel pi (pfsPath c) st b (w, t) = some (0, w', t') ∧ view w' = view w ∧
      (kept w' → kept w ∧ t' =
        { t with
          tarfile := t.tarfile ++ (window (storeChecksum (storeBody i.body b)) 0 END ++
            i.body.content)
          archived := t.archived ++ [(pi.pathPrefix, pfsPath c)] }) := by
  obtain ⟨fuel, rfl⟩ := Nat.exists_eq_succ_of_ne_zero (by omega : fuel ≠ 0)
  -- a header alone is one block
  have halone : ∀ (f : ℤ) (b : ℕ → UInt8) (w : σ) (tarfile : List UInt8), f < 0 →
      blockLoop io f (fuel + 1) b END w tarfile = some (w, tarfile ++ window b 0 END) := by
    intro f b w tarfile hf
    simp [blockLoop, Int.not_le.mpr hf]
  unfold tarBody
  rw [hst.mode]
  cases hbody : i.body with
  | dir =>
    have hreg : ¬ fioSIsreg i.mode = true := by simp [fioSIsreg_iff, hbody]
    have hdir : fioSIsdir i.mode = true := by simp [fioSIsdir_iff, hbody]
    simp only [if_neg hreg, if_pos hdir, halone (-1) _ _ _ (by decide), Option.map_some]
    refine ⟨_, _, rfl, hfs.close_neg (by decide), fun h => ⟨hfs.before h, ?_⟩⟩
    simp [storeBody, Body.content]
  | link target =>
    have hreg : ¬ fioSIsreg i.mode = true := by simp [fioSIsreg_iff, hbody]
    have hdir : ¬ fioSIsdir i.mode = true := by simp [fioSIsdir_iff, hbody]
    have hlnk : fioSIslnk i.mode = true := by simp [fioSIslnk_iff, hbody]
    obtain ⟨hdata, hview⟩ := hfs.readlink (n := 100) hc htree hbody
    simp only [if_neg hreg, if_neg hdir, if_pos hlnk, halone (-1) _ _ _ (by decide),
      Option.map_some, hdata]
    refine ⟨_, _, rfl, (hfs.close_neg (by decide)).trans hview,
      fun h => ⟨hfs.before (hfs.before h), ?_⟩⟩
    simp [storeBody, Body.content, List.take_take]
  | file bytes =>
    have hreg : fioSIsreg i.mode = true := by simp [fioSIsreg_iff, hbody]
    rw [hbody] at hsize
    simp only [Body.size] at hsize
    have hsizeOf : st.size = bytes.length := by
      rw [(hst.size bytes hbody).1, Nat.mod_eq_of_lt hsize]
    have hopen := hfs.open_read hc htree hbody
    have hkept := hfs.before (c := .open (pfsPath c) fioORdonly 0) (w := w)
    generalize hio : io (.open (pfsPath c) fioORdonly 0) w = res at hopen hkept
    obtain ⟨reply, w₁⟩ := res
    simp only at hopen hkept
    simp only [if_pos hreg, hio, hsizeOf]
    rcases hopen with ⟨hneg, hlost, hview⟩ | ⟨f, rfl, hfree, hview⟩
    · -- only the header is written
      rw [halone _ _ _ _ hneg, Option.map_some]
      refine ⟨_, _, rfl, (hfs.close_neg hneg).trans hview, fun h => ?_⟩
      have hk := hfs.before h
      refine ⟨hkept hk, ?_⟩
      simp [storeBody, Body.content, hlost hk]
    · obtain ⟨w₂, tarfile', file, heq, hview₂, hrest⟩ := blockLoop_file (P := P) (c := c) hfs
        hfree.1 hbody (fuel + 1) 0 (storeChecksum (storeBody (.file bytes) b)) END w₁ t.tarfile _
        (by rw [List.drop_zero]; omega) (by rw [hview]; exact hc.1) (by rw [hview]; exact htree)
        (by rw [hview, World.files_setFile]) rfl
      have hclose₂ := hfs.close_file (w := w₂) (by rw [hview₂, World.files_setFile])
      rw [storeBody] at heq
      rw [heq, Option.map_some]
      refine ⟨_, _, rfl, ?_, fun h => ?_⟩
      · rw [hclose₂, hview₂, hview, World.setFile_setFile, World.setFile_setFile,
          World.setFile_self _ hfree.2.2]
      · obtain ⟨hk, htar⟩ := hrest (hfs.before h)
        refine ⟨hkept hk, ?_⟩
        simp [htar, storeBody, Body.content]

/-- A file that the header has no room for the size of. -/
def Inode.tooLarge (i : Inode) : Bool := 4294967296 ≤ i.body.size

/-- What `tar_c_file` does for an entry of partition `P`. -/
def emitTar (P : CStr) (t : Tar) (x : List CStr × Inode) : Tar :=
  if x.2.tooLarge then t.say (.tooLarge (pfsPath x.1))
  else
    { t with
      tarfile := t.tarfile ++ entryBytes (archName P x.1) x.2
      archived := t.archived ++ [(P ++ [slash], pfsPath x.1)] }

/-- **`tar_c_file` writes or reports every entry it is called for.** -/
theorem visits_tar (hfs : BackupFs io view kept) (fuel : ℕ) (hfuel : 8388609 ≤ fuel)
    (hP : P.length ≤ 32) (hT : T.Wf) :
    Visits view kept T P (tarCFile io fuel) { origLen := 6, pathPrefix := P ++ [slash] }
      (emitTar P) := by
  intro w t c i st hm htree hi hlen hst
  have hhisize : (fioSIsreg st.mode = true ∧ st.hisize ≠ 0) ↔ i.tooLarge = true := by
    rw [hst.mode, fioSIsreg_iff, Inode.tooLarge, decide_eq_true_eq]
    constructor
    · rintro ⟨⟨bytes, hbody⟩, hhi⟩
      rw [(hst.size bytes hbody).2] at hhi
      rw [hbody, Body.size]
      exact Nat.le_of_not_lt fun hlt => hhi (Nat.div_eq_of_lt hlt)
    · intro hle
      cases hbody : i.body with
      | file bytes =>
        rw [hbody, Body.size] at hle
        refine ⟨⟨bytes, rfl⟩, ?_⟩
        rw [(hst.size bytes hbody).2]
        omega
      | dir | link _ =>
        rw [hbody, Body.size] at hle
        omega
  by_cases hlarge : i.tooLarge = true
  · refine ⟨w, t.say (.tooLarge (pfsPath c)), ?_, rfl, fun h => ⟨h, ?_⟩⟩
    · simp only [tarCFile, if_pos (hhisize.mpr hlarge)]
    · rw [emitTar, if_pos hlarge]
  · obtain ⟨s, hs⟩ := below_eq_cons c
    have hpath : (P ++ [slash] ++ (pfsPath c).drop 6).take 511 = archName P c := by
      have hdrop : (pfsPath c).drop 6 = s := by
        rw [pfsPath, hs]
        rfl
      have hslen : 6 + s.length ≤ 256 := by
        rw [pfsPath, hs, List.length_append, List.length_cons] at hlen
        have : mountPoint.length = 5 := rfl
        simp only [pathMax] at hlen
        omega
      rw [hdrop, List.take_of_length_le (by simp; omega), archName, hs]
      simp
    have hne : ¬ (archName P c).length = 0 := by
      rw [archName, hs]
      simp
    have hsmall : ¬ (fioSIsreg st.mode = true ∧ st.hisize ≠ 0) := fun h => hlarge (hhisize.mp h)
    have hsize : i.body.size < 4294967296 := by simpa [Inode.tooLarge] using hlarge
    obtain ⟨w', t', heq, hview, htar⟩ := tarBody_spec hfs hfuel
      { origLen := 6, pathPrefix := P ++ [slash] } (c := c) hst hsize
      (storeStat st.mode st.mtime (storedName (archName P c))) t ⟨hm, hT.valid (by simp [hi])⟩
      (by rw [htree]; exact hi)
    refine ⟨w', t', ?_, hview, fun h => ?_⟩
    · simp only [tarCFile, if_neg hsmall, hpath, if_neg hne, storePath_archName hP, heq]
    · obtain ⟨hk, ht'⟩ := htar h
      refine ⟨hk, ?_⟩
      rw [ht', emitTar, if_neg hlarge, hst.mode, hst.mtime]
      rfl

theorem foldl_emitTar (P : CStr) (E : List (List CStr × Inode)) (t : Tar) :
    E.foldl (emitTar P) t =
      { tarfile := t.tarfile ++ (E.filter fun x => !x.2.tooLarge).flatMap
          fun x => entryBytes (archName P x.1) x.2
        said := t.said ++ (E.filter fun x => x.2.tooLarge).map
          fun x => .tooLarge (pfsPath x.1)
        archived := t.archived ++ (E.filter fun x => !x.2.tooLarge).map
          fun x => (P ++ [slash], pfsPath x.1) } := by
  induction E generalizing t with
  | nil => simp
  | cons x E ih =>
    rw [List.foldl_cons, ih]
    cases hx : x.2.tooLarge with
    | false => simp [emitTar, hx]
    | true => simp [emitTar, hx, Tar.say]

end Entry

/-! ## 2. One partition after the other -/

section Parts

variable {io : IomanX σ} {view : σ → World} {kept : σ → Prop} {say : Message → τ → τ} {flag : ℕ}
  {arg : Option CStr} {doPart : CStr → σ × τ → Option (σ × τ)} {hdds : List IoxDirent}
  {I : List IoxDirent → (CStr → Tree) → τ → Prop} {J : List IoxDirent → σ → τ → Prop}

/-- What is done for a partition changes nothing but the trees, and keeps the invariant `J` of the
partitions that have been handled and the state.  The partitions are handled in the order of
`hdds`. -/
def Handles (view : σ → World) (arg : Option CStr) (hdds : List IoxDirent)
    (doPart : CStr → σ × τ → Option (σ × τ)) (J : List IoxDirent → σ → τ → Prop) : Prop :=
  ∀ done de rest w t, done ++ de :: rest = hdds → selected arg de = true →
    (view w).mounted = some de.name → J done w t →
    ∃ w' t' trees, doPart (de.name ++ [slash]) (w, t) = some (w', t') ∧
      view w' = { view w with tree := trees } ∧ J (done ++ [de]) w' t'

/-- The invariant is about the trees and what is kept: it is there after the calls that touch
neither. -/
def Stays (view : σ → World) (kept : σ → Prop) (J : List IoxDirent → σ → τ → Prop) : Prop :=
  ∀ done w w' t, (view w').tree = (view w).tree → (kept w' → kept w) → J done w t → J done w' t

theorem selected_none {de : IoxDirent} (h : selected arg de = true) :
    selected none de = true := by
  simp only [selected, Bool.and_eq_true, Bool.or_eq_true, decide_eq_true_eq] at h ⊢
  exact ⟨h.1, Or.inl trivial⟩

/-- **The loop over the partitions.**  By induction on what `hdd0:` still lists. -/
theorem partLoop_handles (say : Message → τ → τ) (flag : ℕ) (dh : ℤ)
    (hfs : BackupFs io view kept)
    (hshort : ∀ de ∈ hdds, selected arg de = true → de.name.length ≤ 32)
    (hstep : Handles view arg hdds doPart J) (hstays : Stays view kept J)
    (hskip : ∀ done de w t, selected arg de = false → J done w t → J (done ++ [de]) w t) :
    ∀ (listing : List IoxDirent) (fuel : ℕ) (de : IoxDirent) (done : List IoxDirent) (w : σ)
      (t : τ), listing.length < fuel → (view w).dirs dh = some listing →
      (view w).mounted = none → (view w).hdd = hdds → done ++ listing = hdds → J done w t →
      ∃ w' t' trees, partLoop io say flag arg doPart dh fuel de (w, t) = some (w', t') ∧
        view w' = World.setDir { view w with tree := trees } dh (some []) ∧
        J (done ++ listing) w' t' := by
  intro listing
  induction listing with
  | nil =>
    intro fuel de done w t hfuel hdirs _ _ _ hJ
    obtain ⟨fuel, rfl⟩ := Nat.exists_eq_succ_of_ne_zero (Nat.ne_of_gt hfuel)
    obtain ⟨hret, hview⟩ := hfs.dread_nil de hdirs
    have hkept := hfs.before (c := .dread dh de) (w := w)
    generalize hio : io (.dread dh de) w = res at hret hview hkept
    obtain ⟨reply, w₁⟩ := res
    simp only at hret hview hkept
    refine ⟨w₁, t, (view w).tree, ?_, ?_, ?_⟩
    · simp only [partLoop, hio, hret]
      simp
    · rw [hview]
      exact (World.setDir_self (view w) hdirs).symm
    · rw [List.append_nil]
      exact hstays done w w₁ t (by rw [hview]) hkept hJ
  | cons e listing ih =>
    intro fuel de done w t hfuel hdirs hm hhdd horder hJ
    obtain ⟨fuel, rfl⟩ := Nat.exists_eq_succ_of_ne_zero (Nat.ne_of_gt (Nat.zero_lt_of_lt hfuel))
    obtain ⟨hret, hde, hview⟩ := hfs.dread_cons de hdirs
    have hkept := hfs.before (c := .dread dh de) (w := w)
    generalize hio : io (.dread dh de) w = res at hret hde hview hkept
    obtain ⟨reply, w₁⟩ := res
    simp only at hret hde hview hkept
    have hgo : reply.ret ≠ 0 ∧ reply.ret ≠ -1 := by omega
    have he : e ∈ hdds := horder ▸ List.mem_append_right _ List.mem_cons_self
    have hrest : (done ++ [e]) ++ listing = hdds := by rw [← horder, List.append_assoc]; rfl
    have hJ₁ : J done w₁ t := hstays done w w₁ t (by rw [hview]; rfl) hkept hJ
    rw [List.length_cons] at hfuel
    simp only [partLoop, hio, if_pos hgo, hde]
    by_cases hsel : selected arg e = true
    · have hname := hshort e he hsel
      have hdev : (hdd ++ e.name).take 255 = hdd ++ e.name :=
        List.take_of_length_le (by
          have : hdd.length = 5 := rfl
          rw [List.length_append]
          omega)
      have hpre : (e.name ++ [slash]).take 255 = e.name ++ [slash] :=
        List.take_of_length_le (by simp; omega)
      obtain ⟨hret₂, hview₂⟩ := hfs.mount (w := w₁) flag (by rw [hview]; exact hm)
        (by rw [hview]; exact hhdd ▸ he) (selected_none hsel)
      have hkept₂ := hfs.before (c := .mount mountPoint (hdd ++ e.name) flag) (w := w₁)
      generalize hio₂ : io (.mount mountPoint (hdd ++ e.name) flag) w₁ = res at hret₂ hview₂ hkept₂
      obtain ⟨mounted, w₂⟩ := res
      simp only at hret₂ hview₂ hkept₂
      obtain ⟨w₃, t₃, trees, heq, hview₃, hJ₃⟩ := hstep done e listing w₂ t horder hsel
        (by rw [hview₂]) (hstays done w₁ w₂ t (by rw [hview₂]) hkept₂ hJ₁)
      have humount := hfs.umount (w := w₃)
      obtain ⟨w', t', trees', heq', hview', hJ'⟩ := ih fuel e (done ++ [e])
        (io (.umount mountPoint) w₃).2 t₃ (by omega)
        (by rw [humount, hview₃, hview₂, hview]; exact World.dirs_setDir _ _ _) (by rw [humount])
        (by rw [humount, hview₃, hview₂, hview]; exact hhdd) hrest
        (hstays _ w₃ _ t₃ (by rw [humount]) hfs.before hJ₃)
      refine ⟨w', t', trees', ?_, ?_, by rwa [List.append_assoc] at hJ'⟩
      · rw [if_pos hsel, hdev, hio₂, if_neg (by simpa using hret₂), hpre, heq, Option.bind_some,
          heq']
      · rw [hview', humount, hview₃, hview₂, hview]
        simp [World.setDir, hm]
    · have hnot : selected arg e = false := by simpa using hsel
      obtain ⟨w', t', trees, heq', hview', hJ'⟩ := ih fuel e (done ++ [e]) w₁ t (by omega)
        (by rw [hview, World.dirs_setDir]) (by rw [hview]; exact hm) (by rw [hview]; exact hhdd)
        hrest (hskip done e w₁ t hnot hJ₁)
      refine ⟨w', t', trees, ?_, ?_, by rwa [List.append_assoc] at hJ'⟩
      · rw [if_neg hsel, heq']
      · rw [hview', hview]
        simp [World.setDir]

/-- **`tar_part` and `part_tar`** handle every partition of `hdd0:` in order. -/
theorem eachPart_handles (say : Message → τ → τ) (flag : ℕ) (hfs : BackupFs io view kept)
    (uninit : Uninit) (hshort : ∀ de ∈ hdds, selected arg de = true → de.name.length ≤ 32)
    (hstep : Handles view arg hdds doPart J) (hstays : Stays view kept J)
    (hskip : ∀ done de w t, selected arg de = false → J done w t → J (done ++ [de]) w t)
    (fuel : ℕ) {w : σ} {t : τ} (hfuel : hdds.length < fuel) (hm : (view w).mounted = none)
    (hhdd : (view w).hdd = hdds) (hJ : J [] w t) :
    ∃ w' t' trees, eachPart io uninit say flag arg doPart fuel (w, t) = some (0, w', t') ∧
      view w' = { view w with tree := trees } ∧ J hdds w' t' := by
  obtain ⟨d, hd, hfree, hview⟩ := hfs.dopen_hdd (w := w)
  have hkept := hfs.before (c := .dopen hdd) (w := w)
  generalize hio : io (.dopen hdd) w = res at hd hview hkept
  obtain ⟨dir, w₁⟩ := res
  simp only at hd hview hkept
  subst hd
  obtain ⟨w₂, t', trees, heq, hview₂, hJ₂⟩ := partLoop_handles say flag dir.ret hfs hshort
    hstep hstays hskip hdds fuel uninit.dirent [] w₁ t hfuel
    (by rw [hview, World.dirs_setDir, hhdd]) (by rw [hview]; exact hm) (by rw [hview]; exact hhdd)
    rfl (hstays [] w w₁ t (by rw [hview]; rfl) hkept hJ)
  obtain ⟨hret₃, hview₃⟩ := hfs.close_dir (w := w₂) (by rw [hview₂, World.dirs_setDir])
  have hkept₃ := hfs.before (c := .close dir.ret) (w := w₂)
  generalize hio₃ : io (.close dir.ret) w₂ = res at hret₃ hview₃ hkept₃
  obtain ⟨reply, w₃⟩ := res
  simp only at hret₃ hview₃ hkept₃
  refine ⟨w₃, t', trees, ?_, ?_, hstays hdds w₂ w₃ t' (by rw [hview₃]; rfl) hkept₃ hJ₂⟩
  · simp only [eachPart, hio, if_pos hfree.1, heq, Option.map_some, hio₃]
    rw [if_neg (by omega)]
  · have hclosed := World.setDir_self { view w with tree := trees } hfree.2.1
    rw [hview₃, hview₂, hview, World.setDir_setDir]
    simpa [World.setDir] using hclosed

end Parts

/-! ## 3. The backup -/

/-- An entry as pfs2tar can keep it: a file below 4 GiB, a link target that fits its field, and a
time of the years 1970 to 2105. -/
structure Inode.Ok (i : Inode) : Prop where
  size : i.body.size < 4294967296
  target : ∀ target, i.body = .link target → target.length ≤ 100 ∧ 0 ∉ target
  dated : i.mtime.Dated

/-- A finite tree of such entries. -/
structure Tree.Ok (T : Tree) : Prop where
  wf : T.Wf
  finite : {c | T c ≠ none}.Finite
  entry : ∀ c i, c ≠ [] → T c = some i → i.Ok

/-- A disk whose PFS partitions, those that are selected, hold such trees. -/
structure World.Ok (V : World) (arg : Option CStr) : Prop where
  mounted : V.mounted = none
  nodup : ((V.hdd.filter (selected arg)).map IoxDirent.name).Nodup
  name : ∀ de ∈ V.hdd, selected arg de = true → de.name.length ≤ 32 ∧ 0 ∉ de.name
  tree : ∀ de ∈ V.hdd, selected arg de = true → (V.tree de.name).Ok

/-- A disk as `--backup` can meet it: names and link targets are C strings, a partition's name is
no longer than APA lets it be, and the trees are finite. -/
structure World.Disk (V : World) (arg : Option CStr) : Prop where
  mounted : V.mounted = none
  name : ∀ de ∈ V.hdd, selected arg de = true → de.name.length ≤ 32 ∧ 0 ∉ de.name
  wf : ∀ de ∈ V.hdd, selected arg de = true → (V.tree de.name).Wf
  finite : ∀ de ∈ V.hdd, selected arg de = true → {c | V.tree de.name c ≠ none}.Finite
  target : ∀ de ∈ V.hdd, selected arg de = true → ∀ c i target, V.tree de.name c = some i →
    i.body = .link target → 0 ∉ target

theorem Tree.Ok.size {T : Tree} (hT : T.Ok) {c : List CStr} {i : Inode} (h : T c = some i) :
    i.body.size < 4294967296 := by
  by_cases hc : c = []
  · subst hc
    obtain ⟨j, hj, hbody⟩ := hT.wf.root
    rw [h] at hj
    rw [Option.some.inj hj, hbody]
    decide
  · exact (hT.entry c i hc h).size

theorem World.Ok.disk {V : World} {arg : Option CStr} (h : V.Ok arg) : V.Disk arg where
  mounted := h.mounted
  name := h.name
  wf := fun de hde hsel => (h.tree de hde hsel).wf
  finite := fun de hde hsel => (h.tree de hde hsel).finite
  target := by
    intro de hde hsel c i target hi hbody
    by_cases hc : c = []
    · subst hc
      obtain ⟨j, hj, hdir⟩ := (h.tree de hde hsel).wf.root
      rw [hi] at hj
      rw [← Option.some.inj hj, hbody] at hdir
      cases hdir
    · exact (((h.tree de hde hsel).entry c i hc hi).target target hbody).2

/-- The two names of a listing that are no entries. -/
theorem isDots_iff {n : CStr} : isDots n = true ↔ n ∈ [[46], [46, 46]] := by
  simp [isDots]

/-- A listing is no longer than the tree has entries, but for the dots. -/
theorem Tree.Lists.length_le {T : Tree} (hT : {c | T c ≠ none}.Finite) {c : List CStr}
    {listing : List IoxDirent} (h : T.Lists c listing) :
    listing.length ≤ hT.toFinset.card + 2 := by
  obtain ⟨names, hnames⟩ : ∃ names, names = listing.map IoxDirent.name := ⟨_, rfl⟩
  have hnodup : names.Nodup := by
    rw [hnames]
    exact h.nodup
  have hdots : (names.filter isDots).length ≤ 2 := by
    have hsub : names.filter isDots ⊆ [[46], [46, 46]] :=
      fun n hn => isDots_iff.mp (List.mem_filter.mp hn).2
    exact (List.subperm_of_subset (hnodup.filter _) hsub).length_le
  have hothers : (names.filter fun n => !isDots n).length ≤ hT.toFinset.card := by
    have hmap : ((names.filter fun n => !isDots n).map fun n => c ++ [n]).Nodup := by
      refine (hnodup.filter _).map fun m n hmn => ?_
      simpa using hmn
    have hsub : ((names.filter fun n => !isDots n).map fun n => c ++ [n]).toFinset ⊆
        hT.toFinset := by
      intro d hd
      simp only [List.mem_toFinset, List.mem_map, List.mem_filter, Bool.not_eq_true'] at hd
      obtain ⟨n, ⟨hn, hne⟩, rfl⟩ := hd
      rw [hnames] at hn
      obtain ⟨de, hde, rfl⟩ := List.mem_map.mp hn
      simpa using h.sound de hde hne
    have hcard := Finset.card_le_card hsub
    rwa [List.toFinset_card_of_nodup hmap, List.length_map] at hcard
  have hsplit := List.length_eq_length_filter_add (l := names) isDots
  have hlen : names.length = listing.length := by rw [hnames, List.length_map]
  omega

/-- A length that no listing of the selected partitions exceeds. -/
theorem World.Disk.listing_le {V : World} {arg : Option CStr} (h : V.Disk arg) :
    ∃ L, ∀ de ∈ V.hdd, selected arg de = true →
      ∀ c listing, (V.tree de.name).Lists c listing → listing.length ≤ L := by
  have hall : ∀ hdds : List IoxDirent, (∀ de ∈ hdds, de ∈ V.hdd) →
      ∃ L, ∀ de ∈ hdds, selected arg de = true →
        ∀ c listing, (V.tree de.name).Lists c listing → listing.length ≤ L := by
    intro hdds
    induction hdds with
    | nil => exact fun _ => ⟨0, fun de hde => absurd hde List.not_mem_nil⟩
    | cons e hdds ih =>
      intro hsub
      obtain ⟨L, hL⟩ := ih fun de hde => hsub de (List.mem_cons_of_mem _ hde)
      by_cases hsel : selected arg e = true
      · have hfin := h.finite e (hsub e List.mem_cons_self) hsel
        refine ⟨max L (hfin.toFinset.card + 2), fun de hde hde' c listing hlist => ?_⟩
        rcases List.mem_cons.mp hde with rfl | hde
        · exact (hlist.length_le hfin).trans (Nat.le_max_right _ _)
        · exact (hL de hde hde' c listing hlist).trans (Nat.le_max_left _ _)
      · refine ⟨L, fun de hde hde' => ?_⟩
        rcases List.mem_cons.mp hde with rfl | hde
        · exact absurd hde' hsel
        · exact hL de hde hde'
  exact hall V.hdd fun _ hde => hde

/-- The entries of a partition, in the order of the archive. -/
abbrev PartEntries := CStr × List (List CStr × Inode)

/-- What the archive holds for a partition. -/
def PartEntries.bytes (b : PartEntries) : List UInt8 :=
  b.2.flatMap fun x => entryBytes (archName b.1 x.1) x.2

/-- What the entries of a partition are in `archived`. -/
def PartEntries.log (b : PartEntries) : List (CStr × CStr) :=
  b.2.map fun x => (b.1 ++ [slash], pfsPath x.1)

/-- The entries that are not too large. -/
def PartEntries.small (b : PartEntries) : PartEntries := (b.1, b.2.filter fun x => !x.2.tooLarge)

/-- What is printed about the entries that are. -/
def PartEntries.said (b : PartEntries) : List Message :=
  (b.2.filter fun x => x.2.tooLarge).map fun x => .tooLarge (pfsPath x.1)

/-- `B` is what the walks of the selected partitions among `hdds` visit, in order. -/
structure Backed (V : World) (arg : Option CStr) (hdds : List IoxDirent) (B : List PartEntries) :
    Prop where
  parts : B.map Prod.fst = (hdds.filter (selected arg)).map IoxDirent.name
  walked : ∀ b ∈ B, ∃ r path, Walked (V.tree b.1) [] b.2 r path

theorem mem_selected_names {arg : Option CStr} {P : CStr} {hdds : List IoxDirent} :
    P ∈ (hdds.filter (selected arg)).map IoxDirent.name ↔
      ∃ de ∈ hdds, selected arg de = true ∧ de.name = P := by
  simp only [List.mem_map, List.mem_filter, and_assoc]

/-- The partition of some entries is one of the disk. -/
theorem Backed.mem {V : World} {arg : Option CStr} {hdds : List IoxDirent}
    {B : List PartEntries} (h : Backed V arg hdds B) {b : PartEntries} (hb : b ∈ B) :
    ∃ de ∈ hdds, selected arg de = true ∧ de.name = b.1 :=
  mem_selected_names.mp (h.parts ▸ List.mem_map_of_mem hb)

section Written

variable {σ : Type} {io : IomanX σ} {view : σ → World} {kept : σ → Prop} {V : World}
  {arg : Option CStr}

/-- What has been written when the partitions `done` have been walked: the disk is as it was, and
if nothing is lost the archive holds their entries. -/
def Written (view : σ → World) (kept : σ → Prop) (V : World) (arg : Option CStr)
    (done : List IoxDirent) (w : σ) (t : Tar) : Prop :=
  (view w).tree = V.tree ∧ (kept w → ∃ B, Backed V arg done B ∧
    t.tarfile = B.flatMap (fun b => b.small.bytes) ∧
    t.archived = B.flatMap (fun b => b.small.log) ∧ t.said = B.flatMap PartEntries.said)

theorem Written.start {w : σ} (hV : V = view w) : Written view kept V arg [] w {} :=
  ⟨by rw [hV], fun _ => ⟨[], ⟨rfl, fun b hb => absurd hb List.not_mem_nil⟩, rfl, rfl, rfl⟩⟩

theorem written_stays : Stays view kept (Written view kept V arg) := by
  intro done w w' t htree hk h
  exact ⟨htree.trans h.1, fun hw => h.2 (hk hw)⟩

/-- A partition that is not selected adds nothing. -/
theorem Written.skip {done : List IoxDirent} {de : IoxDirent} {w : σ} {t : Tar}
    (hsel : selected arg de = false) (h : Written view kept V arg done w t) :
    Written view kept V arg (done ++ [de]) w t := by
  refine ⟨h.1, fun hw => ?_⟩
  obtain ⟨B, hB, htar⟩ := h.2 hw
  refine ⟨B, ⟨?_, hB.walked⟩, htar⟩
  rw [hB.parts, List.filter_append]
  simp [hsel]

/-- A walk of a selected partition adds its entries. -/
theorem Written.walk {done : List IoxDirent} {de : IoxDirent} {w w' : σ} {t t' : Tar}
    (hsel : selected arg de = true) (h : Written view kept V arg done w t)
    (htree : (view w').tree = (view w).tree) {r : ℤ} {path : CStr}
    (hE : kept w' → kept w ∧ ∃ E, t' = E.foldl (emitTar de.name) t ∧
      Walked (V.tree de.name) [] E r path) :
    Written view kept V arg (done ++ [de]) w' t' := by
  refine ⟨htree.trans h.1, fun hw => ?_⟩
  obtain ⟨hk, E, ht', hE⟩ := hE hw
  obtain ⟨B, hB, htar, harch, hsaid⟩ := h.2 hk
  rw [ht', foldl_emitTar]
  refine ⟨B ++ [(de.name, E)], ⟨?_, fun b hb => ?_⟩, ?_, ?_, ?_⟩
  · rw [List.map_append, hB.parts, List.filter_append, List.map_append]
    simp [hsel]
  · rcases List.mem_append.mp hb with hb | hb
    · exact hB.walked b hb
    · rw [List.mem_singleton.mp hb]
      exact ⟨r, path, hE⟩
  · simp [htar, PartEntries.bytes, PartEntries.small]
  · simp [harch, PartEntries.log, PartEntries.small]
  · simp [hsaid, PartEntries.said]

/-- **The walk of a partition**, with enough fuel for its listings and a file's blocks. -/
theorem written_handles (hfs : BackupFs io view kept) (uninit : Uninit) (hdisk : V.Disk arg)
    {L fuel : ℕ}
    (hL : ∀ de ∈ V.hdd, selected arg de = true →
      ∀ c listing, (V.tree de.name).Lists c listing → listing.length ≤ L)
    (hfuel : 8388609 + L ≤ fuel) :
    Handles view arg V.hdd (fun prefixPath s =>
      (wrappedFtw io uninit fuel prefixPath (mountPoint ++ [slash]) (tarCFile io fuel) s).map
        Prod.snd) (Written view kept V arg) := by
  intro done de rest w t horder hsel hm h
  have hde : de ∈ V.hdd := horder ▸ List.mem_append_right _ List.mem_cons_self
  have hname := (hdisk.name de hde hsel).1
  have hT := hdisk.wf de hde hsel
  obtain ⟨r, path, w', t', heq, hview, -, hE⟩ := doWrappedFtw_walked (P := de.name) hfs uninit
    hT (hL de hde hsel) (visits_tar hfs fuel (by omega) hname hT) fuel [] w t
    (by rw [length_pfsPath_root, pathMax]; omega) hm (by rw [h.1])
    (by obtain ⟨i, hi, -⟩ := hT.root; simp [hi]) (by rw [length_pfsPath_root, pathMax]; omega)
  refine ⟨w', t', V.tree, ?_, ?_, h.walk hsel (by rw [hview]) hE⟩
  · have hlen : ¬ pathMax < (mountPoint ++ [slash]).length := by decide
    have hwalk : doWrappedFtw io uninit (tarCFile io fuel)
        { origLen := (mountPoint ++ [slash]).length, pathPrefix := de.name ++ [slash] } fuel
        (mountPoint ++ [slash]) (w, t) = some (r, path, w', t') := heq
    simp only [wrappedFtw, if_neg hlen, hwalk, Option.map_some]
  · rw [hview, ← h.1]

end Written

/-- **What a backup writes**, if nothing is lost.  Enough fuel is a bound for the listings and a
file's blocks. -/
theorem backup_spec {io : IomanX σ} {view : σ → World} {kept : σ → Prop}
    (hfs : BackupFs io view kept) (uninit : Uninit) {arg : Option CStr} {w : σ}
    (hdisk : (view w).Disk arg) :
    ∃ n, ∀ fuel, n ≤ fuel → ∃ w' t, backup io uninit arg fuel w = some (w', t) ∧
      view w' = view w ∧ (kept w' → ∃ B, Backed (view w) arg (view w).hdd B ∧
        t.tarfile = B.flatMap (fun b => b.small.bytes) ++ zeros ∧
        t.archived = B.flatMap (fun b => b.small.log) ∧ t.said = B.flatMap PartEntries.said) := by
  obtain ⟨L, hL⟩ := hdisk.listing_le
  refine ⟨8388609 + L + (view w).hdd.length, fun fuel hfuel => ?_⟩
  obtain ⟨V, hV⟩ : ∃ V, V = view w := ⟨_, rfl⟩
  rw [← hV] at hdisk hL hfuel
  obtain ⟨w', t', trees, heq, hview, hwritten⟩ := eachPart_handles (fun m t => t.say m)
    fioMtRdonly hfs uninit (fun de hde hsel => (hdisk.name de hde hsel).1)
    (written_handles hfs uninit hdisk hL (show 8388609 + L ≤ fuel by omega)) written_stays
    (fun _ _ _ _ => Written.skip) fuel (w := w) (t := {}) (by omega)
    (by rw [← hV]; exact hdisk.mounted) (by rw [hV]) (.start hV)
  obtain ⟨htrees, hB⟩ := hwritten
  refine ⟨w', { t' with tarfile := t'.tarfile ++ List.replicate 512 0 ++ List.replicate 512 0 },
    ?_, ?_, fun h => ?_⟩
  · rw [backup, tarPart, heq]
    rfl
  · rw [hview] at htrees ⊢
    simp only at htrees
    rw [htrees, hV]
  · obtain ⟨B, hB, htar, harch, hsaid⟩ := hB h
    rw [← hV]
    refine ⟨B, hB, ?_, harch, hsaid⟩
    simp only [htar, zeros, List.append_assoc]

end PfsShell.Pfs2tar
