/-
# The form of the current directory

`ctx->path` is declared with the comment `"/" when root; not '/'-terminated` (`Canonical`), and
`do_cd` edits it in place: `cd ..` cuts it at its last slash.

Neither an absolute nor a relative argument is looked at before it is copied, and iomanX takes a
path with a slash at its end.  So `cd dir/` leaves a path that ends in a slash, and `cd ..` then
only removes that slash: the shell stays where it is (`trailing_slash`).

`cd_iff` says for which commands the form is kept, and with it the rest: a command that fails
leaves the path alone, and `cd ..` goes to the parent.
-/
import PfsShell.Lib.Run
import PfsShell.Shell.Commands

namespace PfsShell.Shell

open PfsShell.Lib

variable {σ : Type}

/-! ## 1. Paths -/

/-- The comment on the field. -/
structure Canonical (path : CStr) : Prop where
  absolute : path.head? = some slash
  notTerminated : path ≠ [slash] → path.getLast? ≠ some slash

/-- The text of a path from the root down. -/
def dirPath (d : List CStr) : CStr := if d = [] then [slash] else d.flatMap (slash :: ·)

/-- `path` names the directory at `d`; it may have a slash at its end. -/
def Names (path : CStr) (d : List CStr) : Prop := path = dirPath d ∨ path = dirPath d ++ [slash]

/-- A name of a directory that is neither `.` nor `..`. -/
structure Proper (name : CStr) : Prop where
  nonempty : name ≠ []
  noSlash : slash ∉ name
  notDot : name ≠ ascii ['.']
  notDotDot : name ≠ ascii ['.', '.']

theorem canonical_root : Canonical [slash] := ⟨rfl, fun h => absurd rfl h⟩

theorem dirPath_ne_nil (d : List CStr) : dirPath d ≠ [] := by
  cases d with
  | nil => exact List.cons_ne_nil _ _
  | cons c d =>
    rw [dirPath, if_neg (List.cons_ne_nil c d), List.flatMap_cons]
    exact List.cons_ne_nil _ _

theorem dirPath_concat (d : List CStr) (c : CStr) :
    dirPath (d ++ [c]) = d.flatMap (slash :: ·) ++ slash :: c := by
  rw [dirPath, if_neg (List.concat_ne_nil c d), List.flatMap_append, List.flatMap_singleton]

/-- A path of that form has no slash at its end to spare. -/
theorem Canonical.names {path : CStr} (h : Canonical path) {d : List CStr} (hd : Names path d) :
    path = dirPath d := by
  rcases hd with hd | hd
  · exact hd
  · have hlast : path.getLast? = some slash := by rw [hd, List.getLast?_concat]
    refine absurd hlast (h.notTerminated ?_)
    intro hroot
    exact dirPath_ne_nil d (List.append_left_eq_self.mp (hd.symm.trans hroot))

/-! ## 2. The last slash -/

theorem strrchr_notMem {c : UInt8} : ∀ {s : CStr}, c ∉ s → strrchr c s = none
  | [], _ => rfl
  | x :: s, h => by
    have hx : x ≠ c := fun hx => h (hx ▸ List.mem_cons_self)
    have hs : c ∉ s := fun hs => h (List.mem_cons_of_mem _ hs)
    simp only [strrchr, strrchr_notMem hs, if_neg hx]

theorem strrchr_append {c : UInt8} {name : CStr} (h : c ∉ name) :
    ∀ front : CStr, strrchr c (front ++ c :: name) = some front.length
  | [] => by simp only [List.nil_append, strrchr, strrchr_notMem h, if_true, List.length_nil]
  | x :: front => by
    simp only [List.cons_append, strrchr, strrchr_append h front, List.length_cons]

/-- Cut at the last slash. -/
theorem exists_last {c : UInt8} :
    ∀ {s : CStr}, c ∈ s → ∃ front name, s = front ++ c :: name ∧ c ∉ name
  | [], h => nomatch h
  | x :: s, h => by
    by_cases hs : c ∈ s
    · obtain ⟨front, name, rfl, hname⟩ := exists_last hs
      exact ⟨x :: front, name, rfl, hname⟩
    · obtain rfl := (List.mem_cons.mp h).resolve_right hs
      exact ⟨[], s, rfl, hs⟩

theorem last_unique {c : UInt8} {front front' name name' : CStr}
    (heq : front ++ c :: name = front' ++ c :: name') (h : c ∉ name) (h' : c ∉ name') :
    front = front' := by
  have hlen : front.length = front'.length := by
    rw [← Option.some.injEq, ← strrchr_append h front, ← strrchr_append h' front', heq]
  exact (List.append_inj heq hlen).1

/-! ## 3. What `cd` makes of a path -/

/-- `cd ..` and `cd ../`. -/
abbrev IsParent (name : CStr) : Prop := name = [46, 46] ∨ name = [46, 46, slash]

/-- An argument that keeps the form, when the command succeeds. -/
structure CleanArg (path name : CStr) : Prop where
  /-- What is copied does not end in a slash, and is not empty but in the root directory. -/
  copied : name ≠ [slash] → ¬ IsParent name →
    name.getLast? ≠ some slash ∧ (name = [] → path = [slash])
  /-- What is cut off does not stand behind two slashes. -/
  cut : IsParent name → ∀ front last, slash ∉ last → path = front ++ slash :: slash :: last →
    front = []

section Paths

variable {path path' name front last : CStr}

theorem not_isParent_root : ¬ IsParent [slash] := by unfold IsParent; decide

/-- The path without its last component. -/
theorem cdPath_parent (hname : IsParent name) (hlast : slash ∉ last) :
    cdPath (front ++ slash :: last) name = some (if front = [] then [slash] else front) := by
  have hroot : name ≠ [slash] := fun h => not_isParent_root (h ▸ hname)
  rw [cdPath, if_neg hroot, if_pos hname, strrchr_append hlast, Option.map_some]
  congr 1
  cases front with
  | nil => rfl
  | cons c front =>
    have hne : (c :: front).length ≠ 0 := Nat.succ_ne_zero _
    rw [if_pos hne, if_neg (List.cons_ne_nil c front), List.take_left' rfl]

theorem canonical_front (h : Canonical (front ++ slash :: last)) (hlast : slash ∉ last) :
    Canonical (if front = [] then [slash] else front) ↔ ∀ front' last', slash ∉ last' →
      front ++ slash :: last = front' ++ slash :: slash :: last' → front' = [] := by
  by_cases hfront : front = []
  · rw [if_pos hfront]
    refine iff_of_true canonical_root fun front' last' hlast' heq => ?_
    have hcut : front = front' ++ [slash] := last_unique (heq.trans (by simp)) hlast hlast'
    exact absurd (hfront ▸ hcut.symm) (List.concat_ne_nil slash front')
  · rw [if_neg hfront]
    constructor
    · intro hcanonical front' last' hlast' heq
      have hcut : front = front' ++ [slash] := last_unique (heq.trans (by simp)) hlast hlast'
      by_contra hne
      refine hcanonical.notTerminated ?_ (by rw [hcut, List.getLast?_concat])
      rw [hcut]
      intro hroot
      exact hne (List.append_left_eq_self.mp hroot)
    · intro hcut
      constructor
      · rw [← h.absolute, List.head?_append_of_ne_nil _ hfront]
      · intro hroot hends
        obtain ⟨front', hfront'⟩ := List.getLast?_eq_some_iff.mp hends
        have hnil := hcut front' last hlast (by rw [hfront']; simp)
        exact hroot (by rw [hfront', hnil, List.nil_append])

/-- What a relative argument is appended to. -/
theorem canonical_base (h : Canonical path) :
    ∃ front, (if 1 < path.length then path ++ [slash] else path) = front ++ [slash] ∧
      (front ++ [slash]).head? = some slash ∧ (front = [] ↔ path = [slash]) := by
  by_cases hlen : 1 < path.length
  · have hne : path ≠ [] := List.ne_nil_of_length_pos (by omega)
    refine ⟨path, if_pos hlen, ?_, ?_⟩
    · rw [List.head?_append_of_ne_nil _ hne, h.absolute]
    · exact iff_of_false hne fun hroot => absurd hlen (by rw [hroot]; decide)
  · have hroot : path = [slash] := by
      obtain ⟨rest, hrest⟩ := List.head?_eq_some_iff.mp h.absolute
      rw [hrest, List.length_cons] at hlen
      have hnil : rest = [] := List.eq_nil_of_length_eq_zero (by omega)
      rw [hrest, hnil]
    exact ⟨[], by rw [if_neg hlen, hroot, List.nil_append], rfl, by simp [hroot]⟩

theorem canonical_absolute (hhead : name.head? = some slash) (hroot : name ≠ [slash]) :
    Canonical name ↔ name.getLast? ≠ some slash ∧ (name = [] → path = [slash]) := by
  constructor
  · intro h
    exact ⟨h.notTerminated hroot, fun hnil => absurd hhead (by rw [hnil]; simp)⟩
  · intro h
    exact ⟨hhead, fun _ => h.1⟩

theorem canonical_relative (hbase : (front ++ [slash]).head? = some slash)
    (hfront : front = [] ↔ path = [slash]) :
    Canonical (front ++ [slash] ++ name) ↔
      name.getLast? ≠ some slash ∧ (name = [] → path = [slash]) := by
  by_cases hname : name = []
  · subst hname
    rw [List.append_nil]
    constructor
    · intro h
      refine ⟨by simp, fun _ => hfront.mp ?_⟩
      by_contra hne
      refine h.notTerminated (fun hroot => ?_) List.getLast?_concat
      exact hne (List.append_left_eq_self.mp hroot)
    · intro h
      rw [hfront.mpr (h.2 rfl)]
      exact canonical_root
  · have hlast : (front ++ [slash] ++ name).getLast? = name.getLast? :=
      List.getLast?_append_of_ne_nil _ hname
    constructor
    · intro h
      refine ⟨?_, fun hnil => absurd hnil hname⟩
      rw [← hlast]
      refine h.notTerminated fun hroot => ?_
      have hlen := congrArg List.length hroot
      have hpos := List.length_pos_iff.mpr hname
      simp only [List.length_append, List.length_singleton] at hlen
      omega
    · intro h
      exact ⟨by rw [List.head?_append_of_ne_nil _ (List.concat_ne_nil slash front), hbase],
        fun _ => hlast ▸ h.1⟩

/-- **The form after a command**, from a path that has it. -/
theorem cdPath_canonical_iff (h : Canonical path) (hcd : cdPath path name = some path') :
    Canonical path' ↔ CleanArg path name := by
  by_cases hroot : name = [slash]
  · rw [cdPath, if_pos hroot] at hcd
    cases hcd
    refine iff_of_true canonical_root ⟨fun hne => absurd hroot hne, fun hparent => ?_⟩
    exact absurd (hroot ▸ hparent) not_isParent_root
  · by_cases hparent : IsParent name
    · obtain ⟨front, last, rfl, hlast⟩ :=
        exists_last (List.mem_of_mem_head? (a := slash) h.absolute)
      obtain rfl := Option.some.inj ((cdPath_parent hparent hlast).symm.trans hcd)
      rw [canonical_front h hlast]
      constructor
      · intro hcut
        exact ⟨fun _ hnot => absurd hparent hnot, fun _ => hcut⟩
      · intro hclean
        exact hclean.cut hparent
    · have hcopied : CleanArg path name ↔
          name.getLast? ≠ some slash ∧ (name = [] → path = [slash]) :=
        ⟨fun hclean => hclean.copied hroot hparent,
          fun hcopied => ⟨fun _ _ => hcopied, fun hyes => absurd hyes hparent⟩⟩
      rw [cdPath, if_neg hroot, if_neg hparent] at hcd
      rw [hcopied]
      by_cases hhead : name.head? = some slash
      · rw [if_pos hhead, buffer] at hcd
        obtain ⟨-, hpath'⟩ := Option.ite_none_right_eq_some.mp hcd
        rw [← Option.some.inj hpath']
        exact canonical_absolute hhead hroot
      · obtain ⟨front, hbase, habsolute, hfront⟩ := canonical_base h
        rw [if_neg hhead, buffer, hbase] at hcd
        obtain ⟨-, hpath'⟩ := Option.ite_none_right_eq_some.mp hcd
        rw [← Option.some.inj hpath']
        exact canonical_relative habsolute hfront

/-- **`cd ..` goes to the parent**, from a path of that form. -/
theorem cdPath_names_parent (h : Canonical path) (hname : IsParent name) {d : List CStr}
    (hd : ∀ c ∈ d, Proper c) (hpath : Names path d) (hcd : cdPath path name = some path') :
    Names path' d.dropLast := by
  obtain rfl := h.names hpath
  refine .inl ?_
  rcases List.eq_nil_or_concat' d with rfl | ⟨d, c, rfl⟩
  · have hcut : cdPath ([] ++ slash :: []) name = some [slash] :=
      cdPath_parent hname List.not_mem_nil
    exact (Option.some.inj (hcut.symm.trans hcd)).symm
  · have hslash : slash ∉ c := (hd c List.mem_concat_self).noSlash
    rw [dirPath_concat, cdPath_parent hname hslash] at hcd
    rw [← Option.some.inj hcd, List.dropLast_concat, dirPath]
    by_cases hnil : d = []
    · rw [if_pos hnil, hnil, List.flatMap_nil, if_pos rfl]
    · have hne := dirPath_ne_nil d
      rw [dirPath, if_neg hnil] at hne
      rw [if_neg hnil, if_neg hne]

end Paths

/-! ## 4. Runs of `cd` -/

section Runs

variable (io : IomanX σ)

/-- The command line `cd name`. -/
def cdLine (name : CStr) : List CStr := [ascii ['c', 'd'], name]

/-- The session after it. -/
def cdStep (name : CStr) (s : Session σ) : Option (Session σ) :=
  (doCd io (cdLine name) s).map (·.2)

/-- The resulting path stays below 250 bytes. -/
def Short (name : CStr) (s : Session σ) : Prop :=
  ∃ path, cdPath s.ctx.path name = some path ∧ path.length < 250

/-- iomanX takes the path that results. -/
def Accepted (name : CStr) (s : Session σ) : Prop :=
  ∃ path, cdPath s.ctx.path name = some path ∧ 0 ≤ (io (.chdir (pfs ++ path)) s.world).1.ret

/-- A command that is accepted has an argument that keeps the form. -/
def Clean (name : CStr) (s : Session σ) : Prop := Accepted io name s → CleanArg s.ctx.path name

/-- What a command should do. -/
def CdKeeps (name : CStr) (s : Session σ) : Prop :=
  ∃ r t, doCd io (cdLine name) s = some (r, t) ∧ Canonical t.ctx.path ∧
    (r < 0 → t.ctx.path = s.ctx.path) ∧
    (0 ≤ r → IsParent name → ∀ d : List CStr, (∀ c ∈ d, Proper c) → Names s.ctx.path d →
      Names t.ctx.path d.dropLast)

variable {io} {name path : CStr} {s : Session σ}

variable (io) in
theorem doCd_short (hcd : cdPath s.ctx.path name = some path) (hlen : path.length < 250) :
    ∃ t, doCd io (cdLine name) s = some ((io (.chdir (pfs ++ path)) s.world).1.ret, t) ∧
      t.ctx.path =
        if (io (.chdir (pfs ++ path)) s.world).1.ret < 0 then s.ctx.path else path := by
  have hfits : (pfs ++ path).length < 256 := by
    rw [List.length_append]
    exact Nat.add_lt_add_of_le_of_lt (by decide : pfs.length ≤ 5) (by omega : path.length < 251)
  have harg : arg (cdLine name) 1 = name := rfl
  rw [doCd, harg, hcd, Option.bind_some, buffer, if_pos hfits, Option.map_some]
  dsimp only [Session.call]
  by_cases hneg : (io (.chdir (pfs ++ path)) s.world).1.ret < 0
  · rw [if_pos hneg, if_pos hneg]
    exact ⟨_, rfl, rfl⟩
  · rw [if_neg hneg, if_neg hneg]
    exact ⟨_, rfl, rfl⟩

/-- One command. -/
theorem cdKeeps_iff (h : Canonical s.ctx.path) (hshort : Short name s) :
    CdKeeps io name s ↔ Clean io name s := by
  obtain ⟨path, hcd, hlen⟩ := hshort
  obtain ⟨t, hrun, hpath⟩ := doCd_short io hcd hlen
  have hkeeps : CdKeeps io name s ↔ Canonical t.ctx.path := by
    constructor
    · rintro ⟨r, t', hrun', hcanonical, -⟩
      cases hrun.symm.trans hrun'
      exact hcanonical
    · intro hcanonical
      refine ⟨_, t, hrun, hcanonical, fun hneg => ?_, fun hge hparent d hd hnames => ?_⟩
      · rw [hpath, if_pos hneg]
      · rw [hpath, if_neg hge.not_gt]
        exact cdPath_names_parent h hparent hd hnames hcd
  rw [hkeeps, hpath]
  split
  case isTrue hneg =>
    refine iff_of_true h fun haccepted => ?_
    obtain ⟨path', hcd', hge⟩ := haccepted
    cases hcd.symm.trans hcd'
    exact absurd hneg hge.not_gt
  case isFalse hge =>
    rw [cdPath_canonical_iff h hcd]
    exact ⟨fun hclean _ => hclean, fun hclean => hclean ⟨path, hcd, not_lt.mp hge⟩⟩

theorem CdKeeps.canonical (h : CdKeeps io name s) {t : Session σ} (ht : cdStep io name s = some t) :
    Canonical t.ctx.path := by
  obtain ⟨r, t', hrun, hcanonical, -⟩ := h
  rw [cdStep, hrun] at ht
  cases ht
  exact hcanonical

/-- **The path keeps its form, and each command does what it should, exactly when every command
that is accepted has an argument that keeps the form.** -/
theorem cd_iff {names : List CStr} (hs : s.ctx.path = [slash])
    (hshort : Along (cdStep io) Short names s) :
    Along (cdStep io) (CdKeeps io) names s ↔ Along (cdStep io) (Clean io) names s := by
  have hroot : Canonical s.ctx.path := hs ▸ canonical_root
  constructor
  · intro h
    refine along_of_along (I := fun s => Canonical s.ctx.path) ?_ hroot (along_and hshort h)
    intro name _ s hs ⟨hshort, hkeeps⟩
    exact ⟨(cdKeeps_iff hs hshort).mp hkeeps, fun t ht => hkeeps.canonical ht⟩
  · intro h
    refine along_of_along (I := fun s => Canonical s.ctx.path) ?_ hroot (along_and hshort h)
    intro name _ s hs ⟨hshort, hclean⟩
    have hkeeps := (cdKeeps_iff hs hshort).mpr hclean
    exact ⟨hkeeps, fun t ht => hkeeps.canonical ht⟩

/-- An iomanX that changes to the directories of a list, and to no others. -/
def changing (dirs : List (List CStr)) : IomanX Unit
  | .chdir path, w =>
    ({ ret := if dirs.any fun d => path = pfs ++ dirPath d ∨ path = pfs ++ dirPath d ++ [slash]
        then 0 else -2 }, w)
  | _, w => ({}, w)

/-- The root, and `/d`. -/
def oneDir : IomanX Unit := changing [[], [ascii ['d']]]

theorem cd_iff_one : Along (cdStep oneDir) (CdKeeps oneDir) [ascii ['d'], ascii ['.', '.']]
    { world := () } ↔ Along (cdStep oneDir) (Clean oneDir) [ascii ['d'], ascii ['.', '.']]
      { world := () } := by
  refine cd_iff rfl ⟨⟨_, rfl, by decide⟩, fun t ht => ?_⟩
  obtain rfl := Option.some.inj (show some _ = some t from ht)
  exact ⟨⟨_, rfl, by decide⟩, fun t ht => trivial⟩

/-- **`cd d/` and then `cd ..`.**  Both succeed.  The path is `/d/` after the first, and `/d` after
the second: both name the same directory. -/
theorem trailing_slash : ∃ s t,
    cdStep oneDir (ascii ['d', '/']) { world := () } = some s ∧ s.ctx.path = ascii ['/', 'd', '/'] ∧
      ¬ Canonical s.ctx.path ∧
      doCd oneDir (cdLine (ascii ['.', '.'])) s = some (0, t) ∧ t.ctx.path = ascii ['/', 'd'] ∧
      Names s.ctx.path [ascii ['d']] ∧ Names t.ctx.path [ascii ['d']] := by
  refine ⟨_, _, rfl, rfl, fun h => ?_, rfl, rfl, .inr rfl, .inl rfl⟩
  exact h.notTerminated (by decide) rfl

end Runs

end PfsShell.Shell
