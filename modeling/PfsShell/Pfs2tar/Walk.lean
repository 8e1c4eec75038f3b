/-
# What a walk visits

`do_wrapped_ftw` on a file system whose calls may fail, with a callback that goes on and leaves the
file system as it is (`Visits`).  If nothing is lost, the entries it calls the callback for, in
order, are a list `E`:

* every one is an entry of the tree, at most once, and after the directory it is in (`Walked`);
* the path of every one but the start fits the buffer;
* when the walk returns 0, every entry below its start is in `E`, and the path buffer is again
  what it was;
* it returns 0 whenever every path fits the buffer (`Fits`).

The loop over a directory is an induction on what the directory still lists (`ftwLoop_walked`),
and the recursion one on the fuel (`doWrappedFtw_walked`).
-/
import PfsShell.Pfs2tar.Entry
import PfsShell.Pfs2tar.Flaky

namespace PfsShell.Pfs2tar

open PfsShell.Lib

variable {σ τ : Type}

/-! ## 1. Visited entries -/

/-- Every entry comes after the directory it is in, or that directory has been seen before. -/
def ParentsFirst : List (List CStr) → List (List CStr × Inode) → Prop
  | _, [] => True
  | seen, x :: E => x.1.dropLast ∈ seen ∧ ParentsFirst (x.1 :: seen) E

theorem ParentsFirst.mono {E : List (List CStr × Inode)} : ∀ {seen more : List (List CStr)},
    (∀ c ∈ seen, c ∈ more) → ParentsFirst seen E → ParentsFirst more E := by
  induction E with
  | nil => exact fun _ _ => trivial
  | cons x E ih =>
    intro seen more hsub h
    refine ⟨hsub _ h.1, ih (fun c hc => ?_) h.2⟩
    rcases List.mem_cons.mp hc with rfl | hc
    · exact List.mem_cons_self
    · exact List.mem_cons_of_mem _ (hsub c hc)

theorem ParentsFirst.append {F : List (List CStr × Inode)} :
    ∀ {E : List (List CStr × Inode)} {seen : List (List CStr)},
      ParentsFirst seen E → ParentsFirst seen F → ParentsFirst seen (E ++ F) := by
  intro E
  induction E with
  | nil => exact fun _ hF => hF
  | cons x E ih =>
    intro seen hE hF
    exact ⟨hE.1, ih hE.2 (hF.mono fun c hc => List.mem_cons_of_mem _ hc)⟩

/-- The names below `c` fit the path buffer. -/
def Fits (T : Tree) (c : List CStr) : Prop :=
  ∀ d n, c <+: d → T (d ++ [n]) ≠ none → (pfsPath d).length + n.length < pathMax

theorem Fits.below {T : Tree} {c d : List CStr} (h : Fits T c) (hd : c <+: d) : Fits T d :=
  fun e n he hn => h e n (hd.trans he) hn

/-- The paths of the entries below `c` that are visited fit the path buffer. -/
def HaveRoom (c : List CStr) (E : List (List CStr × Inode)) : Prop :=
  ∀ x ∈ E, ∀ d n, c <+: d → x.1 = d ++ [n] → (pfsPath d).length + n.length < pathMax

/-- What a walk from `c` visits, with the value it returns and the path buffer it leaves. -/
structure Walked (T : Tree) (c : List CStr) (E : List (List CStr × Inode)) (r : ℤ) (path : CStr) :
    Prop where
  found : ∀ x ∈ E, T x.1 = some x.2 ∧ c <+: x.1
  nodup : (E.map Prod.fst).Nodup
  parents : ∃ i F, E = (c, i) :: F ∧ ParentsFirst [c] F
  room : HaveRoom c E
  buffer : r = 0 → path = pfsPath c
  complete : r = 0 → ∀ d i, c <+: d → T d = some i → (d, i) ∈ E
  whole : Fits T c → r = 0

/-- What the loop over the directory at `c` visits, while the directory still lists `listing`. -/
structure Entered (T : Tree) (c : List CStr) (listing : List IoxDirent)
    (E : List (List CStr × Inode)) (r : ℤ) (path : CStr) : Prop where
  found : ∀ x ∈ E, T x.1 = some x.2 ∧ ∃ de ∈ listing, c ++ [de.name] <+: x.1
  nodup : (E.map Prod.fst).Nodup
  parents : ParentsFirst [c] E
  room : HaveRoom c E
  buffer : r = 0 → path = pfsPath c
  complete : r = 0 → ∀ de ∈ listing, isDots de.name = false →
    ∀ d i, c ++ [de.name] <+: d → T d = some i → (d, i) ∈ E
  whole : Fits T c → r = 0

section Entered

variable {T : Tree} {c : List CStr} {n : CStr} {de : IoxDirent} {listing : List IoxDirent}
  {E F : List (List CStr × Inode)} {r : ℤ} {path path' : CStr}

/-- A walk from an entry of `c` starts behind `c`. -/
theorem Walked.parentsFirst (h : Walked T (c ++ [n]) E r path) : ParentsFirst [c] E := by
  obtain ⟨i, F, rfl, hF⟩ := h.parents
  refine ⟨by simp, hF.mono fun d hd => ?_⟩
  rw [List.mem_singleton.mp hd]
  exact List.mem_cons_self

/-- The path of the entry that a walk starts from, and the paths below it. -/
theorem Walked.haveRoom (h : Walked T (c ++ [n]) E r path)
    (hroom : (pfsPath c).length + n.length < pathMax) : HaveRoom c E := by
  intro x hx d m hcd hxd
  obtain ⟨hpre, hpre'⟩ : c ++ [n] <+: x.1 ∧ d <+: x.1 :=
    ⟨(h.found x hx).2, hxd ▸ List.prefix_append d [m]⟩
  rcases Nat.eq_or_lt_of_le hcd.length_le with heq | hlt
  · obtain rfl := hcd.eq_of_length heq
    rw [hxd] at hpre
    have hname : c ++ [n] = c ++ [m] := hpre.eq_of_length (by simp)
    obtain rfl : n = m := by simpa using hname
    exact hroom
  · exact h.room x hx d m (List.prefix_of_prefix_length_le hpre hpre' (by simpa using hlt)) hxd

theorem HaveRoom.cons {i : Inode} (h : HaveRoom c E) : HaveRoom c ((c, i) :: E) := by
  intro x hx d n hcd hxd
  rcases List.mem_cons.mp hx with rfl | hx
  · obtain rfl : c = d ++ [n] := hxd
    have hlen := hcd.length_le
    simp at hlen
  · exact h x hx d n hcd hxd

theorem Entered.nil (hpath : path = pfsPath c) : Entered T c [] [] 0 path where
  found := fun _ hx => absurd hx List.not_mem_nil
  nodup := List.nodup_nil
  parents := trivial
  room := fun _ hx => absurd hx List.not_mem_nil
  buffer := fun _ => hpath
  complete := fun _ _ hde => absurd hde List.not_mem_nil
  whole := fun _ => rfl

theorem Entered.dots (hdots : isDots de.name = true) (h : Entered T c listing E r path) :
    Entered T c (de :: listing) E r path where
  found := fun x hx =>
    let ⟨hT, e, he, hpre⟩ := h.found x hx
    ⟨hT, e, List.mem_cons_of_mem _ he, hpre⟩
  nodup := h.nodup
  parents := h.parents
  room := h.room
  buffer := h.buffer
  complete := by
    intro hr e he hne
    rcases List.mem_cons.mp he with rfl | he
    · rw [hdots] at hne
      exact absurd hne (by decide)
    · exact h.complete hr e he hne
  whole := h.whole

/-- An entry whose walk ended with an error ends the loop. -/
theorem Entered.stop (hr : r ≠ 0) (hroom : (pfsPath c).length + de.name.length < pathMax)
    (h : Walked T (c ++ [de.name]) E r path) :
    Entered T c (de :: listing) E r path where
  found := fun x hx => ⟨(h.found x hx).1, de, List.mem_cons_self, (h.found x hx).2⟩
  nodup := h.nodup
  parents := h.parentsFirst
  room := h.haveRoom hroom
  buffer := fun h0 => absurd h0 hr
  complete := fun h0 => absurd h0 hr
  whole := fun hfits => h.whole (hfits.below (List.prefix_append _ _))

/-- The entries of one name and then those of the others. -/
theorem Entered.cons (hfresh : de.name ∉ listing.map IoxDirent.name)
    (hroom : (pfsPath c).length + de.name.length < pathMax)
    (h : Walked T (c ++ [de.name]) E 0 path') (hrest : Entered T c listing F r path) :
    Entered T c (de :: listing) (E ++ F) r path where
  found := by
    intro x hx
    rcases List.mem_append.mp hx with hx | hx
    · exact ⟨(h.found x hx).1, de, List.mem_cons_self, (h.found x hx).2⟩
    · obtain ⟨hT, e, he, hpre⟩ := hrest.found x hx
      exact ⟨hT, e, List.mem_cons_of_mem _ he, hpre⟩
  nodup := by
    rw [List.map_append, List.nodup_append]
    refine ⟨h.nodup, hrest.nodup, fun d hd e he heq => hfresh ?_⟩
    subst heq
    obtain ⟨x, hx, rfl⟩ := List.mem_map.mp hd
    obtain ⟨y, hy, hyx⟩ := List.mem_map.mp he
    obtain ⟨-, f, hf, hpre⟩ := hrest.found y hy
    have hself := (h.found x hx).2
    rw [hyx] at hpre
    -- both names are the one behind `c` in the same path
    have hname : c ++ [de.name] = c ++ [f.name] :=
      (List.prefix_of_prefix_length_le hself hpre (by simp)).eq_of_length (by simp)
    have heq : de.name = f.name := by simpa using hname
    exact List.mem_map.mpr ⟨f, hf, heq.symm⟩
  parents := h.parentsFirst.append hrest.parents
  room := by
    intro x hx
    rcases List.mem_append.mp hx with hx | hx
    · exact h.haveRoom hroom x hx
    · exact hrest.room x hx
  buffer := hrest.buffer
  complete := by
    intro hr e he hne d i hpre hd
    rcases List.mem_cons.mp he with rfl | he
    · exact List.mem_append_left _ (h.complete rfl d i hpre hd)
    · exact List.mem_append_right _ (hrest.complete hr e he hne d i hpre hd)
  whole := hrest.whole

end Entered

/-! ## 2. The loop over a directory -/

section Loop

variable {io : IomanX σ} {view : σ → World} {kept : σ → Prop} {T : Tree} {P : CStr}
  {c : List CStr} {doEntry : CStr → σ × τ → Option (ℤ × CStr × σ × τ)}
  {emit : τ → List CStr × Inode → τ} {d : ℤ} {l j : ℕ}

/-- The recursive call walks every entry of the directory at `c`, if nothing is lost. -/
def WalksEntries (view : σ → World) (kept : σ → Prop) (T : Tree) (P : CStr) (c : List CStr)
    (doEntry : CStr → σ × τ → Option (ℤ × CStr × σ × τ)) (emit : τ → List CStr × Inode → τ) :
    Prop :=
  ∀ n w t, (view w).mounted = some P → (view w).tree P = T → T (c ++ [n]) ≠ none →
    (pfsPath (c ++ [n])).length ≤ pathMax →
      ∃ r path w' t', doEntry (pfsPath (c ++ [n])) (w, t) = some (r, path, w', t') ∧
        view w' = view w ∧ (r = 0 → path = pfsPath (c ++ [n])) ∧
        (kept w' → kept w ∧ ∃ E, t' = E.foldl emit t ∧ Walked T (c ++ [n]) E r path)

/-- The path of an entry whose name is not too long fits its buffer. -/
theorem length_child_le {c : List CStr} {n : CStr} (h : ¬pathMax - (pfsPath c).length ≤ n.length) :
    (pfsPath (c ++ [n])).length ≤ pathMax := by
  rw [length_pfsPath_concat]
  rcases eq_or_ne c [] with rfl | hne
  · rw [length_pfsPath_root] at h
    have hroot : (slashed []).length = 0 := rfl
    omega
  · rw [length_pfsPath hne] at h
    omega

/-- An entry's path has the directory's own in front. -/
theorem take_child {c : List CStr} {n path : CStr} (h : path = pfsPath (c ++ [n])) :
    path.take (mountPoint ++ slashed c).length = mountPoint ++ slashed c ∧
      path.take (pfsPath c).length = pfsPath c := by
  rw [h, pfsPath_concat]
  refine ⟨List.take_left' rfl, ?_⟩
  rcases eq_or_ne c [] with rfl | hne
  · rfl
  · rw [pfsPath, below_of_ne_nil hne, List.take_left' rfl]

/-- **The loop over a directory.**  By induction on what the directory still lists. -/
theorem ftwLoop_walked (hfs : BackupFs io view kept) (hl : l = (pfsPath c).length)
    (hj : j = (mountPoint ++ slashed c).length)
    (hentry : WalksEntries view kept T P c doEntry emit) : ∀ (listing : List IoxDirent)
      (fuel : ℕ) (de : IoxDirent) (path : CStr) (w : σ) (t : τ), listing.length < fuel →
      (view w).dirs d = some listing → (view w).mounted = some P → (view w).tree P = T →
      (listing.map IoxDirent.name).Nodup →
      (∀ de ∈ listing, isDots de.name = false → T (c ++ [de.name]) ≠ none) →
      path.take j = mountPoint ++ slashed c → path.take l = pfsPath c →
      ∃ r path' w' t', ftwLoop io doEntry d l j fuel de path (w, t) = some (r, path', w', t') ∧
        view w' = (view w).setDir d none ∧ (r = 0 → path' = pfsPath c) ∧
        (kept w' → kept w ∧ ∃ E, t' = E.foldl emit t ∧ Entered T c listing E r path') := by
  intro listing
  induction listing with
  | nil =>
    intro fuel de path w t hfuel hdirs hm htree _ _ _ hpath
    obtain ⟨fuel, rfl⟩ := Nat.exists_eq_succ_of_ne_zero (Nat.ne_of_gt hfuel)
    obtain ⟨hret, hview⟩ := hfs.dread_nil de hdirs
    have hkept := hfs.before (c := .dread d de) (w := w)
    generalize hio : io (.dread d de) w = res at hret hview hkept
    obtain ⟨reply, w₁⟩ := res
    have hclose := (hfs.close_dir (w := w₁) (by rw [hview]; exact hdirs)).2
    exact ⟨0, path.take l, (io (.close d) w₁).2, t, ftwLoop_end hio hret fuel,
      by rw [hclose, hview], fun _ => hpath,
      fun h => ⟨hkept (hfs.before h), [], rfl, Entered.nil hpath⟩⟩
  | cons e listing ih =>
    intro fuel de path w t hfuel hdirs hm htree hnodup hsound htrunk hpath
    obtain ⟨fuel, rfl⟩ := Nat.exists_eq_succ_of_ne_zero (Nat.ne_of_gt (Nat.zero_lt_of_lt hfuel))
    obtain ⟨hret, hde, hview⟩ := hfs.dread_cons de hdirs
    have hkept := hfs.before (c := .dread d de) (w := w)
    generalize hio : io (.dread d de) w = res at hret hde hview hkept
    obtain ⟨reply, w₁⟩ := res
    simp only at hret hde hview hkept
    subst hde
    have hdirs₁ : (view w₁).dirs d = some listing := by rw [hview, World.dirs_setDir]
    have hm₁ : (view w₁).mounted = some P := by rw [hview]; exact hm
    have htree₁ : (view w₁).tree P = T := by rw [hview]; exact htree
    rw [List.map_cons, List.nodup_cons] at hnodup
    have hrest : ∀ de ∈ listing, isDots de.name = false → T (c ++ [de.name]) ≠ none :=
      fun x hx => hsound x (List.mem_cons_of_mem _ hx)
    rw [List.length_cons] at hfuel
    by_cases hdots : isDots reply.dirent.name = true
    · obtain ⟨r, path', w', t', heq, hview', hbuf, hE⟩ := ih fuel reply.dirent path w₁ t
        (by omega) hdirs₁ hm₁ htree₁ hnodup.2 hrest htrunk hpath
      refine ⟨r, path', w', t', (ftwLoop_dots hio hret hdots fuel).trans heq,
        by rw [hview', hview, World.setDir_setDir], hbuf, fun h => ?_⟩
      obtain ⟨hk, E, ht, hE⟩ := hE h
      exact ⟨hkept hk, E, ht, hE.dots hdots⟩
    have hexists := hsound reply.dirent List.mem_cons_self (by simpa using hdots)
    by_cases hlong : pathMax - l ≤ reply.dirent.name.length
    · -- the name does not fit the path buffer
      have hclose := (hfs.close_dir hdirs₁).2
      refine ⟨-1, path, _, t, ftwLoop_long hio hret hdots hlong fuel,
        by rw [hclose, hview, World.setDir_setDir], fun h0 => absurd h0 (by decide),
        fun h => ⟨hkept (hfs.before h), [], rfl, ?_⟩⟩
      refine ⟨fun x hx => absurd hx List.not_mem_nil, List.nodup_nil, trivial,
        fun x hx => absurd hx List.not_mem_nil, fun h0 => absurd h0 (by decide),
        fun h0 => absurd h0 (by decide), fun hfits => ?_⟩
      have hlt := hfits c reply.dirent.name (List.prefix_refl _) hexists
      omega
    have hroom : (pfsPath c).length + reply.dirent.name.length < pathMax := by
      rw [← hl]
      omega
    have hchild : path.take j ++ slash :: reply.dirent.name =
        pfsPath (c ++ [reply.dirent.name]) := by
      rw [htrunk, pfsPath_concat]
    obtain ⟨r, path', w₂, t₂, heq, hview₂, hbuf, hE⟩ := hentry reply.dirent.name w₁ t hm₁ htree₁
      hexists (length_child_le (hl ▸ hlong))
    have hround : ftwLoop io doEntry d l j (fuel + 1) de path (w, t) = _ :=
      ftwLoop_entry hio hret hdots hlong (hchild ▸ heq) fuel
    by_cases hr : r = 0
    · obtain ⟨htrunk', hpath'⟩ := take_child (hbuf hr)
      obtain ⟨r', path'', w', t', heq', hview', hbuf', hF⟩ := ih fuel reply.dirent path' w₂ t₂
        (by omega) (by rw [hview₂]; exact hdirs₁) (by rw [hview₂]; exact hm₁)
        (by rw [hview₂]; exact htree₁) hnodup.2 hrest (hj ▸ htrunk') (hl ▸ hpath')
      refine ⟨r', path'', w', t', hround.trans ((if_neg (not_not.mpr hr)).trans heq'), ?_, hbuf',
        fun h => ?_⟩
      · rw [hview', hview₂, hview, World.setDir_setDir]
      · obtain ⟨hk₂, F, hF', hentered⟩ := hF h
        obtain ⟨hk₁, E, hE', hwalked⟩ := hE hk₂
        subst hr
        exact ⟨hkept hk₁, E ++ F, by rw [List.foldl_append, ← hE', hF'],
          Entered.cons hnodup.1 hroom hwalked hentered⟩
    · have hclose := (hfs.close_dir (w := w₂) (by rw [hview₂]; exact hdirs₁)).2
      refine ⟨r, path', (io (.close d) w₂).2, t₂, hround.trans (if_pos hr), ?_,
        fun h0 => absurd h0 hr, fun h => ?_⟩
      · rw [hclose, hview₂, hview, World.setDir_setDir]
      · obtain ⟨hk₁, E, hE', hwalked⟩ := hE (hfs.before h)
        exact ⟨hkept hk₁, E, hE', Entered.stop hr hroom hwalked⟩

end Loop

/-! ## 3. The whole tree -/

/-- What leads to an entry exists. -/
theorem Tree.Wf.of_append {T : Tree} (hT : T.Wf) {c : List CStr} {n : CStr} {r : List CStr}
    (h : T (c ++ n :: r) ≠ none) : T (c ++ [n]) ≠ none := by
  induction r using List.reverseRecOn with
  | nil => exact h
  | append_singleton r m ih =>
    refine ih ?_
    obtain ⟨⟨i, hi, -⟩, -⟩ := hT.parent (c ++ n :: r) m (by simpa using h)
    simp [hi]

section Whole

variable {io : IomanX σ} {view : σ → World} {kept : σ → Prop} {T : Tree} {P : CStr}
  {fn : Callback σ τ} {pi : PathInfo} {emit : τ → List CStr × Inode → τ} {L : ℕ}

/-- The callback goes on after every entry and leaves the file system as it is, and does `emit` if
nothing is lost. -/
def Visits (view : σ → World) (kept : σ → Prop) (T : Tree) (P : CStr) (fn : Callback σ τ)
    (pi : PathInfo) (emit : τ → List CStr × Inode → τ) : Prop :=
  ∀ w t c i st, (view w).mounted = some P → (view w).tree P = T → T c = some i →
    (pfsPath c).length ≤ pathMax → st.Describes i →
      ∃ w' t', fn pi (pfsPath c) st (w, t) = some (0, w', t') ∧ view w' = view w ∧
        (kept w' → kept w ∧ t' = emit t (c, i))

/-- A walk from something that is not a directory. -/
theorem Walked.leaf (hT : T.Wf) {c : List CStr} {i : Inode} (hi : T c = some i)
    (hdir : i.body ≠ .dir) : Walked T c [(c, i)] 0 (pfsPath c) where
  found := by
    intro x hx
    rw [List.mem_singleton.mp hx]
    exact ⟨hi, List.prefix_refl _⟩
  nodup := List.nodup_singleton _
  parents := ⟨i, [], rfl, trivial⟩
  room := HaveRoom.cons fun _ hx => absurd hx List.not_mem_nil
  buffer := fun _ => rfl
  complete := by
    rintro - d k ⟨r, rfl⟩ hd
    cases r with
    | nil =>
      rw [List.append_nil, hi] at hd
      simp [Option.some.inj hd]
    | cons n r =>
      obtain ⟨⟨j, hj, hbody⟩, -⟩ := hT.parent c n (hT.of_append (r := r) (by simp [hd]))
      rw [hi] at hj
      exact absurd (by rw [Option.some.inj hj, hbody]) hdir
  whole := fun _ => rfl

/-- A walk from a directory is the directory and what its loop visits. -/
theorem Walked.dir (hT : T.Wf) {c : List CStr} {i : Inode} {listing : List IoxDirent}
    {E : List (List CStr × Inode)} {r : ℤ} {path : CStr} (hi : T c = some i)
    (hlist : T.Lists c listing) (h : Entered T c listing E r path) :
    Walked T c ((c, i) :: E) r path where
  found := by
    intro x hx
    rcases List.mem_cons.mp hx with rfl | hx
    · exact ⟨hi, List.prefix_refl _⟩
    · obtain ⟨hT, de, -, hpre⟩ := h.found x hx
      exact ⟨hT, (List.prefix_append _ _).trans hpre⟩
  nodup := by
    rw [List.map_cons, List.nodup_cons]
    refine ⟨fun hmem => ?_, h.nodup⟩
    obtain ⟨x, hx, hxc⟩ := List.mem_map.mp hmem
    obtain ⟨-, de, -, hpre⟩ := h.found x hx
    have hlen := hpre.length_le
    simp only [hxc, List.length_append, List.length_singleton] at hlen
    omega
  parents := ⟨i, E, rfl, h.parents⟩
  room := h.room.cons
  buffer := h.buffer
  complete := by
    rintro hr d k ⟨s, rfl⟩ hd
    cases s with
    | nil =>
      rw [List.append_nil, hi] at hd
      simp [Option.some.inj hd]
    | cons n s =>
      have hn : T (c ++ [n]) ≠ none := hT.of_append (r := s) (by simp [hd])
      obtain ⟨de, hde, rfl⟩ := List.mem_map.mp (hlist.complete n hn)
      exact List.mem_cons_of_mem _
        (h.complete hr de hde (hT.parent c _ hn).2.dots _ k ⟨s, by simp⟩ hd)
  whole := h.whole

/-- **The walk of a tree.**  By induction on the fuel: a path below is longer, and none is longer
than the path buffer. -/
theorem doWrappedFtw_walked (hfs : BackupFs io view kept) (uninit : Uninit) (hT : T.Wf)
    (hL : ∀ c listing, T.Lists c listing → listing.length ≤ L)
    (hfn : Visits view kept T P fn pi emit) : ∀ (fuel : ℕ) (c : List CStr) (w : σ) (t : τ),
      pathMax - (pfsPath c).length + L + 1 < fuel → (view w).mounted = some P →
      (view w).tree P = T → T c ≠ none → (pfsPath c).length ≤ pathMax →
      ∃ r path w' t', doWrappedFtw io uninit fn pi fuel (pfsPath c) (w, t) =
          some (r, path, w', t') ∧
        view w' = view w ∧ (r = 0 → path = pfsPath c) ∧
        (kept w' → kept w ∧ ∃ E, t' = E.foldl emit t ∧ Walked T c E r path) := by
  intro fuel
  induction fuel with
  | zero => exact fun c w t hfuel => absurd hfuel (Nat.not_lt_zero _)
  | succ fuel ih =>
    intro c w t hfuel hm htree hne hlen
    obtain ⟨i, hi⟩ := Option.ne_none_iff_exists'.mp hne
    have hvalid := hT.valid hne
    obtain ⟨hview, hret⟩ := hfs.getstat ⟨hm, hvalid⟩ (by rw [htree]; exact hi)
    have hkept := hfs.before (c := .getstat (pfsPath c)) (w := w)
    generalize hio : io (.getstat (pfsPath c)) w = res at hview hret hkept
    obtain ⟨reply, w₁⟩ := res
    simp only at hview hret hkept
    rcases hret with ⟨hneg, hlost⟩ | ⟨hret, hst⟩
    · -- the entry is given up
      refine ⟨-1, pfsPath c, w₁, t, ?_, hview, fun h0 => absurd h0 (by decide),
        fun h => absurd h hlost⟩
      simp only [doWrappedFtw, hio, if_pos hneg]
    obtain ⟨w₂, t₂, hcall, hview₂, hemit⟩ := hfn w₁ t c i reply.stat (by rw [hview]; exact hm)
      (by rw [hview]; exact htree) hi hlen hst
    have hw₂ : view w₂ = view w := by rw [hview₂, hview]
    have hnot : ¬ reply.ret < 0 := by omega
    have hzero : ¬ (0 : ℤ) ≠ 0 := by decide
    simp only [doWrappedFtw, hio, if_neg hnot, hcall, Option.bind_some, if_neg hzero, hst.mode]
    by_cases hdir : i.body = .dir
    · rw [if_pos ((fioSIsdir_iff i).mpr hdir)]
      have hopen := hfs.dopen_dir (w := w₂) (P := P) (c := c) ⟨by rw [hw₂]; exact hm, hvalid⟩
        ⟨i, by rw [hw₂, htree]; exact hi, hdir⟩
      have hkept₃ := hfs.before (c := .dopen (pfsPath c)) (w := w₂)
      rw [hw₂] at hopen
      generalize hio₃ : io (.dopen (pfsPath c)) w₂ = res at hopen hkept₃
      obtain ⟨dir, w₃⟩ := res
      simp only at hopen hkept₃
      rcases hopen with ⟨hneg, hlost, hview₃⟩ | ⟨d, listing, rfl, hfree, hlist, hview₃⟩
      · -- what is in the directory is given up
        refine ⟨-1, pfsPath c, w₃, t₂, ?_, hview₃, fun h0 => absurd h0 (by decide),
          fun h => absurd h hlost⟩
        rw [if_neg (by simpa using hneg)]
      rw [htree] at hlist
      rw [if_pos hfree.1]
      have hentry : WalksEntries view kept T P c (doWrappedFtw io uninit fn pi fuel) emit := by
        intro n w t hm htree hn hlen'
        have hpos := List.length_pos_iff.mpr (hT.parent c n hn).2.ne_nil
        have hlonger : (pfsPath c).length < (pfsPath (c ++ [n])).length := by
          rw [length_pfsPath_concat]
          rcases eq_or_ne c [] with rfl | hne
          · rw [length_pfsPath_root]
            omega
          · rw [length_pfsPath hne]
            omega
        exact ih (c ++ [n]) w t (by omega) hm htree hn hlen'
      have hlength := hL c listing hlist
      obtain ⟨r, path, w', t', heq, hview', hbuf, hE⟩ := ftwLoop_walked (d := dir.ret) hfs rfl
        (take_pfsPath hvalid) hentry listing fuel uninit.dirent (pfsPath c) w₃ t₂
        (by omega) (by rw [hview₃, World.dirs_setDir]) (by rw [hview₃]; exact hm)
        (by rw [hview₃]; exact htree) hlist.nodup (fun de hde hne => hlist.sound de hde hne)
        (by rw [take_pfsPath hvalid, take_trunk]) List.take_length
      refine ⟨r, path, w', t', heq, ?_, hbuf, fun h => ?_⟩
      · rw [hview', hview₃, World.setDir_setDir, World.setDir_self _ hfree.2.1]
      · obtain ⟨hk₃, E, ht', hentered⟩ := hE h
        obtain ⟨hk₁, ht₂⟩ := hemit (hkept₃ hk₃)
        exact ⟨hkept hk₁, (c, i) :: E, by rw [List.foldl_cons, ← ht₂, ht'],
          Walked.dir hT hi hlist hentered⟩
    · rw [if_neg (fun h => hdir ((fioSIsdir_iff i).mp h))]
      refine ⟨0, pfsPath c, w₂, t₂, ?_, hw₂, fun _ => rfl, fun h => ?_⟩
      · rw [List.take_length]
      · obtain ⟨hk₁, ht₂⟩ := hemit h
        exact ⟨hkept hk₁, [(c, i)], ht₂, Walked.leaf hT hi hdir⟩

end Whole

end PfsShell.Pfs2tar
