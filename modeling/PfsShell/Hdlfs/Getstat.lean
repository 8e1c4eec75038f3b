/-
# Reading the header

`hdlfs_getstat`, and `hdlfs_devctl` with `HDLFS_DEVCTL_GET_TITLE` and
`HDLFS_DEVCTL_GET_STARTUP_PATH`: all three are `hdlfs_getstat_filler`, which reads the header and
fills in what it is given.

The title is copied with `memcpy`, as many bytes as there are in the field less one; the startup
path with `strncpy`, which goes on to the fields behind when the 60 bytes of the path have no NUL.

* `getTitle_iff`, `getStartupPath_iff`: when the text that comes out is the one that is stored;
* `texts_iff`: both, for a header that `hdlfs_format` and `HDLFS_DEVCTL_SET_TITLE` have stored.
-/
import PfsShell.Lib.Strings
import PfsShell.Hdlfs.Mounted

namespace PfsShell.Hdlfs

open PfsShell.Lib

/-! ## 1. What is filled in -/

/-- `iox_stat_t`, as `hdlfs_getstat_filler` fills it in. -/
structure GameStat where
  attr : ℕ := 0
  size : ℕ := 0
  private0 : ℕ := 0
  private1 : ℕ := 0
  private5 : ℕ := 0
  deriving DecidableEq

/-- The loop that adds up the sizes of the parts, with `k` parts left from part `i`. -/
def addParts (specs : ℕ → PartSpecs) : ℕ → ℕ → ℕ → ℕ
  | 0, _, size => size
  | k + 1, i, size => addParts specs k (i + 1) (u32 (size + ((specs i).partSize / 2048 : ℕ)))

/-- `GameSize`, in 2048-byte sectors.  The loop counts to `num_partitions` with an `unsigned int`. -/
def HdlGameInfo.gameSize (info : HdlGameInfo) : ℕ :=
  addParts info.partSpecs (u32 info.numPartitions) 0 0

/-- `stat`. -/
def HdlGameInfo.stat (info : HdlGameInfo) : GameStat where
  attr := info.dmaMode <<< (24 : ℕ) ||| info.dmaType <<< (16 : ℕ) |||
    info.ops2lCompatFlags <<< (8 : ℕ) ||| info.hdlCompatFlags
  size := info.gameSize
  private0 := u32 (info.discType * 65536) ||| u32 info.numPartitions
  private1 := info.layer1Start
  private5 := 0x2000

/-- A part, as it lies in the header. -/
def PartSpecs.bytes (s : PartSpecs) : List UInt8 :=
  leBytes 4 s.partOffset ++ leBytes 4 s.dataStart ++ leBytes 4 s.partSize

/-- What lies in the header behind `startup`. -/
def HdlGameInfo.behindStartup (info : HdlGameInfo) : List UInt8 :=
  leBytes 4 info.layer1Start ++ (leBytes 4 info.discType ++ leBytes 4 (u32 info.numPartitions) ++
    (List.range 65).flatMap fun i => (info.partSpecs i).bytes)

/-- `GameTitleOut`: `memcpy` of the title, and `GameTitleOut[MaxTitleLen - 1] = '\0'`.  There is
no result when that leaves the buffer. -/
def HdlGameInfo.fillTitle (info : HdlGameInfo) (maxTitleLen : ℕ) (buf : List UInt8) :
    Option (List UInt8) :=
  if maxTitleLen = 0 ∨ buf.length < maxTitleLen then none
  else
    let n := (if 160 < maxTitleLen then 160 else maxTitleLen) - 1
    some ((info.gamename.take n ++ buf.drop n).set (maxTitleLen - 1) 0)

/-- `StartupPathOut`: `strncpy` from the startup path on, and
`StartupPathOut[MaxStartupPathLen - 1] = '\0'`.  There is no result when that leaves the buffer or
the header. -/
def HdlGameInfo.fillStartupPath (info : HdlGameInfo) (maxStartupPathLen : ℕ) (buf : List UInt8) :
    Option (List UInt8) :=
  let source := info.startup ++ info.behindStartup
  if maxStartupPathLen = 0 ∨ buf.length < maxStartupPathLen then none
  else if 0 ∉ source ∧ source.length < maxStartupPathLen - 1 then none
  else
    some ((strncpy (maxStartupPathLen - 1) source ++ buf.drop (maxStartupPathLen - 1)).set
      (maxStartupPathLen - 1) 0)

/-- A pointer that may be `NULL`. -/
def unlessNull (fill : List UInt8 → Option (List UInt8)) :
    Option (List UInt8) → Option (Option (List UInt8))
  | none => some none
  | some buf => (fill buf).map some

/-! ## 2. The calls -/

/-- What `hdlfs_getstat_filler` returns and leaves in what it was given. -/
structure Filled (σ : Type) where
  result : ℤ
  stat : Option GameStat := none
  title : Option (List UInt8)
  startupPath : Option (List UInt8)
  driver : Driver σ

section Calls

variable {σ : Type} (io : IomanX σ)

/-- `hdlfs_getstat_filler`.  `wantsStat` is `stat != NULL`.  There is no result when the loop over
the parts leaves `part_specs`. -/
def hdlfsGetstatFiller (unit : ℕ) (wantsStat : Bool) (gameTitleOut : Option (List UInt8))
    (maxTitleLen : ℕ) (startupPathOut : Option (List UInt8)) (maxStartupPathLen : ℕ)
    (d : Driver σ) : Option (Filled σ) :=
  let partFD := (d.fdList unit).mountFD
  if unit < 2 ∧ 0 ≤ partFD then
    let w := (io (.lseek partFD hdlGameDataOffset) d.world).2
    let r := io (.read partFD 1024) w
    if r.1.ret = 1024 then
      if wantsStat ∧ 65 < u32 r.1.info.numPartitions then none
      else
        match unlessNull (r.1.info.fillTitle maxTitleLen) gameTitleOut,
          unlessNull (r.1.info.fillStartupPath maxStartupPathLen) startupPathOut with
        | some title, some startupPath =>
          some
            { result := 0
              stat := if wantsStat then some r.1.info.stat else none
              title := title
              startupPath := startupPath
              driver := { d with world := r.2 } }
        | _, _ => none
    else
      some
        { result := -5
          title := gameTitleOut
          startupPath := startupPathOut
          driver := { d with world := r.2 } }
  else
    some { result := -19, title := gameTitleOut, startupPath := startupPathOut, driver := d }

/-- `hdlfs_getstat`. -/
def hdlfsGetstat (file : IopFile) (d : Driver σ) : Option (Filled σ) :=
  hdlfsGetstatFiller io file.unit true none 0 none 0 d

/-- `hdlfs_devctl` with `HDLFS_DEVCTL_GET_TITLE`. -/
def hdlfsDevctlGetTitle (file : IopFile) (buf : List UInt8) (buflen : ℕ) (d : Driver σ) :
    Option (Filled σ) :=
  if file.unit < 2 ∧ 0 ≤ (d.fdList file.unit).mountFD then
    hdlfsGetstatFiller io file.unit false (some buf) buflen none 0 d
  else some { result := -19, title := some buf, startupPath := none, driver := d }

/-- `hdlfs_devctl` with `HDLFS_DEVCTL_GET_STARTUP_PATH`. -/
def hdlfsDevctlGetStartupPath (file : IopFile) (buf : List UInt8) (buflen : ℕ) (d : Driver σ) :
    Option (Filled σ) :=
  if file.unit < 2 ∧ 0 ≤ (d.fdList file.unit).mountFD then
    hdlfsGetstatFiller io file.unit false none 0 (some buf) buflen d
  else some { result := -19, title := none, startupPath := some buf, driver := d }

end Calls

/-! ## 3. One text -/

/-- The fields of a header hold a title and a startup path.  The path may fill its field. -/
structure HdlGameInfo.Texts (info : HdlGameInfo) (title path : CStr) : Prop where
  gamename : info.gamename.length = 160
  titleText : cutAt 0 info.gamename = title
  short : title.length < 160
  startup : info.startup.length = 60
  pathText : cutAt 0 info.startup = path

section Texts

variable {info : HdlGameInfo} {title path buf out : List UInt8} {n : ℕ}

/-- **The title comes out as it is stored**, except that the last byte of the field is not
copied: a title that fills the field but for its NUL goes on with what was in the buffer. -/
theorem getTitle_iff (h : info.Texts title path) (hfill : info.fillTitle n buf = some out) :
    StringAt out 0 (title.take (n - 1)) ↔
      ¬ (title.length = 159 ∧ 160 < n ∧ buf[159]? ≠ some 0) := by
  have htitle := h.titleText
  have hlen := h.gamename
  have hshort := h.short
  rw [HdlGameInfo.fillTitle] at hfill
  split at hfill
  · cases hfill
  rename_i hn
  obtain ⟨hpos, hbuf⟩ := not_or.mp hn
  obtain rfl := Option.some.inj hfill
  by_cases hlong : 160 < n
  · -- the buffer is longer than the field: 159 bytes are copied
    rw [if_pos hlong]
    have htake : title.take (n - 1) = title := List.take_of_length_le (by omega)
    have hpre : (info.gamename.take 159).length = 159 := by
      rw [List.length_take, hlen]
      rfl
    have hset : (info.gamename.take 159 ++ buf.drop 159).set (n - 1) 0 =
        info.gamename.take 159 ++ (buf.drop 159).set (n - 1 - 159) 0 := by
      rw [List.set_append_right _ _ (by omega), hpre]
    show StringAt ((info.gamename.take 159 ++ buf.drop 159).set (n - 1) 0) 0 _ ↔ _
    rw [htake, hset]
    by_cases hfull : title.length = 159
    · have hcopied : info.gamename.take 159 = title := by
        rw [take_eq_of_cutAt (by omega) (by rw [htitle, hfull]), htitle]
      have hnul : 0 ∉ title := by
        rw [← htitle]
        exact notMem_cutAt 0 _
      obtain ⟨k, hk⟩ : ∃ k, n - 1 - 159 = k + 1 := ⟨n - 161, by omega⟩
      rw [hcopied, List.drop_eq_getElem_cons (by omega), hk, List.set_cons_succ,
        stringAt_append_cons_iff hnul, List.getElem?_eq_getElem (by omega)]
      constructor
      · rintro hzero ⟨-, -, hne⟩
        exact hne (congrArg some hzero)
      · intro hz
        by_contra hne
        exact hz ⟨hfull, hlong, fun he => hne (Option.some.inj he)⟩
    · have hcut : cutAt 0 (info.gamename.take 159) = title := by
        rw [cutAt_take_of_lt (by rw [htitle]; omega), htitle]
      have hmem : 0 ∈ info.gamename.take 159 :=
        mem_of_cutAt_lt (by rw [hcut, hpre]; omega)
      have hstring := stringAt_of_mem hmem ((buf.drop 159).set (n - 1 - 159) 0)
      rw [hcut] at hstring
      exact iff_of_true hstring fun hbad => hfull hbad.1
  · rw [if_neg hlong]
    have hpre : (info.gamename.take (n - 1)).length = n - 1 := by
      rw [List.length_take, hlen]
      omega
    have hstring := stringAt_copy (show 1 ≤ n by omega) (show n ≤ buf.length by omega) hpre
    rw [cutAt_take, htitle] at hstring
    exact iff_of_true hstring fun hbad => hlong hbad.2.1

/-- The first byte behind the startup path is the low one of `layer1_start`. -/
theorem behindStartup_cons (info : HdlGameInfo) : ∃ rest,
    info.behindStartup = UInt8.ofNat info.layer1Start :: rest := ⟨_, rfl⟩

theorem ofNat_eq_zero_iff (v : ℕ) : UInt8.ofNat v = 0 ↔ v % 256 = 0 := by
  rw [← UInt8.toNat_inj]
  exact Iff.rfl

/-- **The startup path comes out as it is stored**, except that a path which fills its field goes
on with `layer1_start`. -/
theorem getStartupPath_iff (h : info.Texts title path)
    (hfill : info.fillStartupPath n buf = some out) :
    StringAt out 0 (path.take (n - 1)) ↔
      ¬ (path.length = 60 ∧ 61 < n ∧ info.layer1Start % 256 ≠ 0) := by
  have hpath := h.pathText
  have hlen := h.startup
  rw [HdlGameInfo.fillStartupPath] at hfill
  split at hfill
  · cases hfill
  rename_i hn
  obtain ⟨hpos, hbuf⟩ := not_or.mp hn
  split at hfill
  · cases hfill
  obtain rfl := Option.some.inj hfill
  have hstring := stringAt_copy (show 1 ≤ n by omega) (show n ≤ buf.length by omega)
    (length_strncpy (n - 1) (info.startup ++ info.behindStartup))
  rw [cutAt_strncpy] at hstring
  have hsame : StringAt ((strncpy (n - 1) (info.startup ++ info.behindStartup) ++
      buf.drop (n - 1)).set (n - 1) 0) 0 (path.take (n - 1)) ↔
      path.take (n - 1) = (cutAt 0 (info.startup ++ info.behindStartup)).take (n - 1) := by
    constructor
    · intro hs
      exact hs.unique hstring
    · intro he
      rw [he]
      exact hstring
  rw [hsame]
  have hle : path.length ≤ 60 := by
    rw [← hpath, ← hlen]
    exact (List.takeWhile_prefix _).length_le
  by_cases hfull : path.length = 60
  · have hall : info.startup = path := by
      have hbegin : path <+: info.startup := by
        rw [← hpath]
        exact List.takeWhile_prefix _
      exact (hbegin.eq_of_length (by omega)).symm
    have hnul : 0 ∉ path := by
      rw [← hpath]
      exact notMem_cutAt 0 _
    obtain ⟨rest, hrest⟩ := behindStartup_cons info
    by_cases hzero : info.layer1Start % 256 = 0
    · have hbyte := (ofNat_eq_zero_iff _).mpr hzero
      rw [hall, hrest, hbyte, cutAt_append_cons hnul]
      exact iff_of_true rfl fun hbad => hbad.2.2 hzero
    · have hbyte : UInt8.ofNat info.layer1Start ≠ 0 := fun he =>
        hzero ((ofNat_eq_zero_iff _).mp he)
      rw [hall, hrest, cutAt_append_of_notMem hnul, cutAt_cons_of_ne hbyte]
      constructor
      · rintro heq ⟨-, hn61, -⟩
        have hlens := congrArg List.length heq
        rw [List.length_take, List.length_take, List.length_append, List.length_cons] at hlens
        omega
      · intro hok
        have hn61 : n - 1 ≤ path.length := by
          by_contra hlt
          exact hok ⟨hfull, by omega, hzero⟩
        rw [List.take_append_of_le_length hn61]
  · have hmem : 0 ∈ info.startup := mem_of_cutAt_lt (by rw [hpath]; omega)
    have hcut : cutAt 0 (info.startup ++ info.behindStartup) = path := by
      rw [cutAt_append_of_mem _ hmem, hpath]
    rw [hcut]
    exact iff_of_true rfl fun hbad => hfull hbad.1

/-- Nothing is read behind a header that has a NUL behind its startup path. -/
theorem fillStartupPath_isSome (hn : 1 ≤ n) (hbuf : n ≤ buf.length)
    (hnul : 0 ∈ info.behindStartup) : ∃ out, info.fillStartupPath n buf = some out := by
  rw [HdlGameInfo.fillStartupPath, if_neg (by omega),
    if_neg fun hno => hno.1 (List.mem_append_right _ hnul)]
  exact ⟨_, rfl⟩

theorem fillTitle_isSome (hn : 1 ≤ n) (hbuf : n ≤ buf.length) :
    ∃ out, info.fillTitle n buf = some out := by
  rw [HdlGameInfo.fillTitle, if_neg (by omega)]
  exact ⟨_, rfl⟩

end Texts

/-! ## 4. Stored and read -/

section Stored

variable {σ : Type} {io : IomanX σ} {geo : CStr → Partition} {view : σ → ApaView} {dev : CStr}
  {title path : CStr} {info : HdlGameInfo} {d : Driver σ} {file : IopFile}

/-- **The header of a partition after its texts were stored**: by a format, and by any number of
`HDLFS_DEVCTL_SET_TITLE` behind it. -/
inductive Stored (io : IomanX σ) (view : σ → ApaView) (dev : CStr) :
    CStr → CStr → HdlGameInfo → Prop
  | format {args : HdlfsFormatArgs} {w w' : σ} (h : hdlfsFormat io args dev w = (0, w'))
      (hn : args.numSectors < 2 ^ 32) (htitle : args.gameTitle.length = 160)
      (hshort : (cutAt 0 args.gameTitle).length < 160) (hpath : args.startupPath.length = 60) :
      Stored io view dev (cutAt 0 args.gameTitle) (cutAt 0 args.startupPath) ((view w').info dev)
  | setTitle {title path newName : CStr} {file : IopFile} {d d' : Driver σ}
      (hstored : Stored io view dev title path ((view d.world).info dev))
      (hon : (view d.world).on (d.fdList file.unit).mountFD = some dev) (hnul : 0 ∉ newName)
      (h : hdlfsDevctlSetTitle io file newName d = (0, d')) :
      Stored io view dev newName path ((view d'.world).info dev)

/-- The fields of the header after that. -/
structure HdlGameInfo.Kept (info : HdlGameInfo) (title path : CStr) : Prop
    extends info.Texts title path where
  numPartitions : 0 ≤ info.numPartitions ∧ info.numPartitions ≤ 65

theorem zero_mem_behindStartup (h : 0 ≤ info.numPartitions ∧ info.numPartitions ≤ 65) :
    0 ∈ info.behindStartup := by
  have hhigh : u32 info.numPartitions / 256 / 256 / 256 = 0 := by
    unfold u32
    omega
  have hbyte : (0 : UInt8) ∈ leBytes 4 (u32 info.numPartitions) := by
    have hlast : UInt8.ofNat (u32 info.numPartitions / 256 / 256 / 256) ∈
        leBytes 4 (u32 info.numPartitions) := by simp [leBytes]
    rw [hhigh] at hlast
    exact hlast
  rw [HdlGameInfo.behindStartup]
  exact List.mem_append_right _ (List.mem_append_left _ (List.mem_append_right _ hbyte))

/-- A new title. -/
theorem HdlGameInfo.Kept.setTitle (h : info.Kept title path) {newName : CStr}
    (hnul : 0 ∉ newName) (hshort : newName.length < 160) :
    (info.setTitle newName).Kept newName path where
  gamename := by
    show (newName ++ List.replicate (160 - newName.length) 0).length = 160
    rw [List.length_append, List.length_replicate]
    omega
  titleText := by
    show cutAt 0 (newName ++ List.replicate (160 - newName.length) 0) = newName
    obtain ⟨k, hk⟩ : ∃ k, 160 - newName.length = k + 1 := ⟨159 - newName.length, by omega⟩
    rw [hk, List.replicate_succ, cutAt_append_cons hnul]
  short := hshort
  startup := h.startup
  pathText := h.pathText
  numPartitions := h.numPartitions

/-- A `SET_TITLE` with 160 bytes or more is refused. -/
theorem setTitle_short {newName : List UInt8} {d' : Driver σ}
    (h : hdlfsDevctlSetTitle io file newName d = (0, d')) : newName.length < 160 := by
  by_contra hlong
  rw [hdlfsDevctlSetTitle] at h
  split at h
  · rw [hdlfsUpdateGameTitle, if_neg hlong] at h
    exact absurd (Prod.mk.inj h).1 (by decide)
  · exact absurd (Prod.mk.inj h).1 (by decide)

/-- **What is stored stays stored.**  The induction is on how it was stored. -/
theorem Stored.kept (laws : HeaderLaws io geo view) (h : Stored io view dev title path info) :
    info.Kept title path := by
  induction h with
  | format h hn htitle hshort hpath =>
    obtain ⟨specs, hinfo, -⟩ := hdlfsFormat_stored laws hn h
    rw [hinfo]
    have hsub := (geo dev).nsub_le
    constructor
    · exact ⟨htitle, rfl, hshort, length_strncpy 60 _, by
        show cutAt 0 (strncpy 60 _) = _
        rw [cutAt_strncpy]
        exact List.take_of_length_le (Nat.le_trans (List.takeWhile_prefix _).length_le hpath.le)⟩
    · show 0 ≤ ((geo dev).nsub : ℤ) + 1 ∧ ((geo dev).nsub : ℤ) + 1 ≤ 65
      omega
  | setTitle hstored hon hnul h ih =>
    obtain ⟨-, -, hinfo⟩ := hdlfsDevctlSetTitle_changed laws hon h le_rfl
    rw [hinfo, Function.update_self]
    exact ih.setTitle hnul (setTitle_short h)

/-- Reading the header of a mounted unit gives what the partition has, or fails. -/
theorem getstatFiller_filled (laws : HeaderLaws io geo view)
    (hon : (view d.world).on (d.fdList file.unit).mountFD = some dev)
    {gameTitleOut startupPathOut title startupPath : Option (List UInt8)} {nT nS : ℕ}
    (hT : unlessNull (((view d.world).info dev).fillTitle nT) gameTitleOut = some title)
    (hS : unlessNull (((view d.world).info dev).fillStartupPath nS) startupPathOut =
      some startupPath) :
    ∃ r, hdlfsGetstatFiller io file.unit false gameTitleOut nT startupPathOut nS d = some r ∧
      (r.result = 0 → r.title = title ∧ r.startupPath = startupPath) := by
  obtain ⟨r, hr, hinfo, -, -, -⟩ := readHeader_view laws hon
  rw [hdlfsGetstatFiller]
  simp only [hr]
  split
  · by_cases hfull : r.1.ret = 1024
    · rw [if_pos hfull, if_neg fun hstat => Bool.false_ne_true hstat.1, hinfo hfull]
      simp only [hT, hS]
      exact ⟨_, rfl, fun _ => ⟨rfl, rfl⟩⟩
    · rw [if_neg hfull]
      exact ⟨_, rfl, fun h => absurd (show (-5 : ℤ) = 0 from h) (by decide)⟩
  · exact ⟨_, rfl, fun h => absurd (show (-19 : ℤ) = 0 from h) (by decide)⟩

theorem getTitle_filled (laws : HeaderLaws io geo view)
    (hon : (view d.world).on (d.fdList file.unit).mountFD = some dev) {buf out : List UInt8} {n : ℕ}
    (hfill : ((view d.world).info dev).fillTitle n buf = some out) :
    ∃ r, hdlfsDevctlGetTitle io file buf n d = some r ∧ (r.result = 0 → r.title = some out) := by
  have hT : unlessNull (((view d.world).info dev).fillTitle n) (some buf) = some (some out) := by
    rw [unlessNull, hfill]
    rfl
  have hS : unlessNull (((view d.world).info dev).fillStartupPath 0) none = some none := rfl
  obtain ⟨r, hr, hout⟩ := getstatFiller_filled laws hon hT hS
  rw [hdlfsDevctlGetTitle]
  split
  · exact ⟨r, hr, fun h => (hout h).1⟩
  · exact ⟨_, rfl, fun h => absurd (show (-19 : ℤ) = 0 from h) (by decide)⟩

theorem getStartupPath_filled (laws : HeaderLaws io geo view)
    (hon : (view d.world).on (d.fdList file.unit).mountFD = some dev) {buf out : List UInt8} {n : ℕ}
    (hfill : ((view d.world).info dev).fillStartupPath n buf = some out) :
    ∃ r, hdlfsDevctlGetStartupPath io file buf n d = some r ∧
      (r.result = 0 → r.startupPath = some out) := by
  have hS : unlessNull (((view d.world).info dev).fillStartupPath n) (some buf) =
      some (some out) := by
    rw [unlessNull, hfill]
    rfl
  have hT : unlessNull (((view d.world).info dev).fillTitle 0) none = some none := rfl
  obtain ⟨r, hr, hout⟩ := getstatFiller_filled laws hon hT hS
  rw [hdlfsDevctlGetStartupPath]
  split
  · exact ⟨r, hr, fun h => (hout h).2⟩
  · exact ⟨_, rfl, fun h => absurd (show (-19 : ℤ) = 0 from h) (by decide)⟩

/-- **The texts survive the header** unless a title of 159 bytes is read into a buffer of more
than 160 that is not zero behind it, or a startup path of 60 bytes into one of more than 61 while
the low byte of `layer1_start` is not zero. -/
theorem texts_iff (laws : HeaderLaws io geo view)
    (hstored : Stored io view dev title path ((view d.world).info dev))
    (hon : (view d.world).on (d.fdList file.unit).mountFD = some dev)
    {bufT bufS : List UInt8} {nT nS : ℕ} (hT : 1 ≤ nT ∧ nT ≤ bufT.length)
    (hS : 1 ≤ nS ∧ nS ≤ bufS.length) :
    ∃ rT rS, hdlfsDevctlGetTitle io file bufT nT d = some rT ∧
      hdlfsDevctlGetStartupPath io file bufS nS d = some rS ∧
      (rT.result = 0 → rS.result = 0 → ∃ outT outS, rT.title = some outT ∧
        rS.startupPath = some outS ∧
        (StringAt outT 0 (title.take (nT - 1)) ∧ StringAt outS 0 (path.take (nS - 1)) ↔
          ¬ (title.length = 159 ∧ 160 < nT ∧ bufT[159]? ≠ some 0) ∧
          ¬ (path.length = 60 ∧ 61 < nS ∧
            ((view d.world).info dev).layer1Start % 256 ≠ 0))) := by
  have hkept := hstored.kept laws
  obtain ⟨outT, hfillT⟩ : ∃ out, ((view d.world).info dev).fillTitle nT bufT = some out :=
    fillTitle_isSome hT.1 hT.2
  obtain ⟨outS, hfillS⟩ := fillStartupPath_isSome hS.1 hS.2
    (zero_mem_behindStartup hkept.numPartitions)
  obtain ⟨rT, hgetT, hokT⟩ := getTitle_filled laws hon hfillT
  obtain ⟨rS, hgetS, hokS⟩ := getStartupPath_filled laws hon hfillS
  refine ⟨rT, rS, hgetT, hgetS, ?_⟩
  intro hT0 hS0
  refine ⟨outT, outS, hokT hT0, hokS hS0, ?_⟩
  rw [getTitle_iff hkept.toTexts hfillT, getStartupPath_iff hkept.toTexts hfillS]

end Stored

/-! ## 5. A path that fills its field -/

/-- A game of three sectors with the title `t` and a startup path of 60 letters. -/
def fullPath : HdlfsFormatArgs where
  numSectors := 3
  layer1Start := 1
  gameTitle := 116 :: List.replicate 159 0
  startupPath := List.replicate 60 97

/-- Partition A is formatted for it. -/
def formattedFull : ApaView := (hdlfsFormat twoSliceApa fullPath (ascii ['A']) blank).2

/-- Then it is mounted as unit 0. -/
def mountedFull : Driver ApaView :=
  (hdlfsMount twoSliceApa {} (ascii ['A']) 0 { world := formattedFull }).2

theorem formattedFull_format :
    hdlfsFormat twoSliceApa fullPath (ascii ['A']) blank = (0, formattedFull) :=
  Prod.ext (by decide) rfl

set_option maxRecDepth 4000 in
theorem mountedFull_stored : Stored twoSliceApa id (ascii ['A']) [116] (List.replicate 60 97)
    (mountedFull.world.info (ascii ['A'])) := by
  have htitle : cutAt 0 fullPath.gameTitle = [116] := by decide
  have hpath : cutAt 0 fullPath.startupPath = List.replicate 60 97 := by decide
  have hstored : Stored twoSliceApa id (ascii ['A']) (cutAt 0 fullPath.gameTitle)
      (cutAt 0 fullPath.startupPath) (formattedFull.info (ascii ['A'])) :=
    .format formattedFull_format (by decide) (by decide) (by rw [htitle]; decide) (by decide)
  rw [htitle, hpath] at hstored
  exact hstored

theorem texts_iff_full : ∃ rT rS,
    hdlfsDevctlGetTitle twoSliceApa {} [1, 2, 3] 3 mountedFull = some rT ∧
    hdlfsDevctlGetStartupPath twoSliceApa {} (List.replicate 61 1) 61 mountedFull = some rS ∧
    (rT.result = 0 → rS.result = 0 → ∃ outT outS, rT.title = some outT ∧
      rS.startupPath = some outS ∧
      (StringAt outT 0 (List.take (3 - 1) [116]) ∧
          StringAt outS 0 ((List.replicate 60 97).take (61 - 1)) ↔
        ¬ (([116] : CStr).length = 159 ∧ 160 < 3 ∧ ([1, 2, 3] : List UInt8)[159]? ≠ some 0) ∧
        ¬ ((List.replicate 60 (97 : UInt8)).length = 60 ∧ 61 < 61 ∧
          ((id mountedFull.world).info (ascii ['A'])).layer1Start % 256 ≠ 0))) :=
  texts_iff twoSliceApa_mountLaws.toHeaderLaws mountedFull_stored (by decide) (by decide)
    (by decide)

set_option maxRecDepth 4000 in
/-- **A startup path of 60 bytes comes out longer.**  The byte behind it is `layer1_start`. -/
theorem startupPath_runs_on :
    Stored twoSliceApa id (ascii ['A']) [116] (List.replicate 60 97)
      (mountedFull.world.info (ascii ['A'])) ∧
    ∃ r out, hdlfsDevctlGetStartupPath twoSliceApa {} (List.replicate 62 1) 62 mountedFull =
        some r ∧ r.result = 0 ∧ r.startupPath = some out ∧
      ¬ StringAt out 0 ((List.replicate 60 97).take (62 - 1)) := by
  refine ⟨mountedFull_stored, _, List.replicate 60 97 ++ [1, 0], rfl, by decide, by decide, ?_⟩
  intro h
  have hcut := h.cutAt_eq
  exact absurd hcut (by decide)

end PfsShell.Hdlfs
