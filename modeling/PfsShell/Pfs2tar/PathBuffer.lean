/-
# The path buffer of the walk

`wrapped_ftw` has one buffer of 257 bytes, and every level of `do_wrapped_ftw` writes its part of
the path into it and cuts it off again.  `doWrappedFtwIn` is the walk on this memory: a write
behind the buffer ends it with `overrun`.

* `wrappedFtwIn_agrees`: it is the walk on texts, and never overruns, whatever iomanX does;
* `walk_iff`: the walk of a finite tree visits all of it and returns 0, with the path buffer as it
  was, if and only if the tree is clear.
-/
import PfsShell.Pfs2tar.TreeWalk

namespace PfsShell.Pfs2tar

open PfsShell.Lib

variable {σ τ : Type}

/-! ## 1. The walk on memory -/

/-- Why a walk has not returned. -/
inductive Stop
  | outOfFuel
  /-- a byte behind the path buffer is to be written -/
  | overrun
  deriving DecidableEq

/-- A write to `pathbuf`, which has `IOMANX_PATH_MAX + 1` bytes. -/
def put (b : ℕ → UInt8) (i : ℕ) (data : List UInt8) : Except Stop (ℕ → UInt8) :=
  if pathMax + 1 < i + data.length then .error .overrun else .ok (overlay b i data)

/-- `strlen(pathbuf)`. -/
def strlen (b : ℕ → UInt8) : ℕ := scan (fun i => b i = 0) (pathMax + 1)

/-- The text in `pathbuf`. -/
def text (b : ℕ → UInt8) : CStr := window b 0 (strlen b)

/-- The loop of `do_wrapped_ftw` over the directory `d`. -/
def ftwLoopIn (io : IomanX σ)
    (doEntry : (ℕ → UInt8) → σ × τ → Except Stop (ℤ × (ℕ → UInt8) × σ × τ)) (d : ℤ) (l j : ℕ) :
    ℕ → IoxDirent → (ℕ → UInt8) → σ × τ → Except Stop (ℤ × (ℕ → UInt8) × σ × τ)
  | 0, _, _, _ => .error .outOfFuel
  | fuel + 1, de, b, (w, t) =>
    let (reply, w) := io (.dread d de) w
    let de := reply.dirent
    if reply.ret ≠ 0 ∧ reply.ret ≠ -1 then
      if isDots de.name then ftwLoopIn io doEntry d l j fuel de b (w, t)
      -- `IOMANX_PATH_MAX - l` is a `size_t`
      else if (pathMax + 2 ^ 64 - l) % 2 ^ 64 ≤ de.name.length then
        .ok (-1, b, (io (.close d) w).2, t)
      else
        (put b j [slash]).bind fun b =>
          (put b (j + 1) (de.name ++ [0])).bind fun b =>
            (doEntry b (w, t)).bind fun (r, b, w, t) =>
              if r ≠ 0 then .ok (r, b, (io (.close d) w).2, t)
              else ftwLoopIn io doEntry d l j fuel de b (w, t)
    else (put b l [0]).bind fun b => .ok (0, b, (io (.close d) w).2, t)

/-- `do_wrapped_ftw`. -/
def doWrappedFtwIn (io : IomanX σ) (uninit : Uninit) (fn : Callback σ τ) (pi : PathInfo) :
    ℕ → (ℕ → UInt8) → σ × τ → Except Stop (ℤ × (ℕ → UInt8) × σ × τ)
  | 0, _, _ => .error .outOfFuel
  | fuel + 1, b, (w, t) =>
    let l := strlen b
    let j := if l ≠ 0 ∧ b (l - 1) = slash then l - 1 else l
    let (reply, w) := io (.getstat (text b)) w
    if reply.ret < 0 then .ok (-1, b, w, t)
    else
      match fn pi (text b) reply.stat (w, t) with
      | none => .error .outOfFuel
      | some (r, w, t) =>
        if r ≠ 0 then .ok (r, b, w, t)
        else if fioSIsdir reply.stat.mode then
          let (dir, w) := io (.dopen (text b)) w
          if 0 ≤ dir.ret then
            ftwLoopIn io (doWrappedFtwIn io uninit fn pi fuel) dir.ret l j fuel uninit.dirent b
              (w, t)
          else .ok (-1, b, w, t)
        else (put b l [0]).bind fun b => .ok (0, b, w, t)

/-- `wrapped_ftw`; `pathbuf` holds anything before. -/
def wrappedFtwIn (io : IomanX σ) (uninit : Uninit) (pathbuf : ℕ → UInt8) (fuel : ℕ)
    (pathPrefix path : CStr) (fn : Callback σ τ) (s : σ × τ) : Except Stop (ℤ × σ × τ) :=
  if pathMax < path.length then .ok (-1, s)
  else
    (put pathbuf 0 (path ++ [0])).bind fun b =>
      (doWrappedFtwIn io uninit fn { origLen := path.length, pathPrefix := pathPrefix } fuel b
        s).bind fun (r, _, s) => .ok (r, s)

/-! ## 2. A text in the buffer -/

/-- The buffer holds the path `p`. -/
structure Holds (b : ℕ → UInt8) (p : CStr) : Prop where
  le : p.length ≤ pathMax
  same : window b 0 p.length = p
  nul : b p.length = 0
  free : 0 ∉ p

section Holds

variable {b : ℕ → UInt8} {p n : CStr} {i j : ℕ} {data : List UInt8}

theorem put_of_le (h : i + data.length ≤ pathMax + 1) : put b i data = .ok (overlay b i data) :=
  if_neg (Nat.not_lt.mpr h)

theorem Holds.apply (h : Holds b p) (hi : i < p.length) : b i = p[i] := by
  have hsame := List.getElem_of_eq h.same.symm hi
  rw [hsame]
  simp [window, live]

theorem Holds.strlen (h : Holds b p) : strlen b = p.length := by
  refine scan_eq_of_first (Nat.lt_succ_of_le h.le) h.nul fun i hi hzero => h.free ?_
  rw [← hzero, h.apply hi]
  exact List.getElem_mem hi

theorem Holds.text (h : Holds b p) : text b = p := by
  rw [Pfs2tar.text, h.strlen, h.same]

/-- The test for a slash at the end of the path. -/
theorem Holds.trunkLength (h : Holds b p) :
    (if p.length ≠ 0 ∧ b (p.length - 1) = slash then p.length - 1 else p.length) =
      trunkLength p := by
  rw [Pfs2tar.trunkLength]
  refine if_congr ?_ rfl rfl
  rw [List.getLast?_eq_getElem?, List.getElem?_eq_some_iff]
  constructor
  · rintro ⟨hpos, hslash⟩
    have hlt : p.length - 1 < p.length := by omega
    exact ⟨hlt, by rw [← h.apply hlt, hslash]⟩
  · rintro ⟨hlt, hslash⟩
    exact ⟨by omega, by rw [h.apply hlt, hslash]⟩

/-- The path of an entry is written behind the directory's. -/
theorem Holds.entry (h : Holds b p) (hj : j ≤ p.length) (hn : 0 ∉ n)
    (hle : j + 1 + n.length ≤ pathMax) :
    Holds (overlay (overlay b j [slash]) (j + 1) (n ++ [0])) (p.take j ++ slash :: n) := by
  have hlen : (p.take j ++ slash :: n).length = j + 1 + n.length := by
    rw [List.length_append, List.length_take, List.length_cons]
    omega
  have hboth : overlay (overlay b j [slash]) (j + 1) (n ++ [0]) =
      overlay b j (slash :: n ++ [0]) := by
    have happend := overlay_append b j [slash] (n ++ [0])
    rw [List.length_singleton] at happend
    rw [← happend]
    rfl
  have hfront : window b 0 j = p.take j := by
    have htake := take_drop_window b 0 (k := 0) (m := j) (n := p.length) (by omega)
    rw [h.same, List.drop_zero, Nat.zero_add] at htake
    exact htake.symm
  have hback : (slash :: n ++ [0]).take (1 + n.length) = slash :: n :=
    List.take_left' (by rw [List.length_cons, Nat.add_comm])
  rw [hboth]
  constructor
  · omega
  · rw [hlen, Nat.add_assoc, window_add, window_overlay_of_disjoint _ (.inl (by omega)), hfront,
      Nat.zero_add, window_overlay_take _ _ (by simp; omega), hback]
  · have hlast : j + 1 + n.length - j = n.length + 1 := by omega
    rw [hlen, overlay_of_mem (by omega) (by simp; omega)]
    simp [hlast]
  · intro hzero
    rcases List.mem_append.mp hzero with hzero | hzero
    · exact h.free (List.mem_of_mem_take hzero)
    · rcases List.mem_cons.mp hzero with hzero | hzero
      · exact absurd hzero (by decide)
      · exact hn hzero

/-- The path is cut off. -/
theorem Holds.cut (h : Holds b p) (hi : i ≤ p.length) :
    Holds (overlay b i [0]) (p.take i) := by
  have hlen : (p.take i).length = i := by
    rw [List.length_take]
    omega
  have hle := h.le
  constructor
  · omega
  · have htake := take_drop_window b 0 (k := 0) (m := i) (n := p.length) (by omega)
    rw [h.same, List.drop_zero, Nat.zero_add] at htake
    rw [hlen, window_overlay_of_disjoint _ (.inl (by omega)), htake]
  · rw [hlen, overlay_of_mem le_rfl (by simp)]
    simp
  · exact fun hzero => h.free (List.mem_of_mem_take hzero)

end Holds

/-! ## 3. Both walks -/

/-- The walk on memory and the walk on texts have stopped at the same point: with the same result
and the path that the buffer holds, which is the one they began with if they return 0. -/
inductive Agrees (path : CStr) : Except Stop (ℤ × (ℕ → UInt8) × σ × τ) →
    Option (ℤ × CStr × σ × τ) → Prop
  | outOfFuel : Agrees path (.error .outOfFuel) none
  | ended {r : ℤ} {b : ℕ → UInt8} {p : CStr} {w : σ} {t : τ} (hb : Holds b p)
      (hpath : r = 0 → p = path) : Agrees path (.ok (r, b, w, t)) (some (r, p, w, t))

section Agrees

variable {io : IomanX σ}

theorem Agrees.cases {path : CStr} {x : Except Stop (ℤ × (ℕ → UInt8) × σ × τ)}
    {y : Option (ℤ × CStr × σ × τ)} (h : Agrees path x y) :
    (x = .error .outOfFuel ∧ y = none) ∨ ∃ r b p w t, x = .ok (r, b, w, t) ∧
      y = some (r, p, w, t) ∧ Holds b p ∧ (r = 0 → p = path) := by
  cases h with
  | outOfFuel => exact .inl ⟨rfl, rfl⟩
  | ended hb hpath => exact .inr ⟨_, _, _, _, _, rfl, rfl, hb, hpath⟩

/-- **The loop over a directory**, by induction on the fuel. -/
theorem ftwLoopIn_agrees (hnames : ∀ c w, 0 ∉ (io c w).1.dirent.name)
    {doEntryIn : (ℕ → UInt8) → σ × τ → Except Stop (ℤ × (ℕ → UInt8) × σ × τ)}
    {doEntry : CStr → σ × τ → Option (ℤ × CStr × σ × τ)}
    (hentry : ∀ b p s, Holds b p → Agrees p (doEntryIn b s) (doEntry p s)) {path : CStr}
    (hle : path.length ≤ pathMax) (d : ℤ) : ∀ (fuel : ℕ) (de : IoxDirent) (b : ℕ → UInt8)
      (p : CStr) (w : σ) (t : τ), Holds b p →
      p.take (trunkLength path) = path.take (trunkLength path) → p.take path.length = path →
      Agrees path (ftwLoopIn io doEntryIn d path.length (trunkLength path) fuel de b (w, t))
        (ftwLoop io doEntry d path.length (trunkLength path) fuel de p (w, t)) := by
  have htrunk := trunkLength_le path
  intro fuel
  induction fuel with
  | zero => exact fun _ _ _ _ _ _ _ _ => .outOfFuel
  | succ fuel ih =>
    intro de b p w t hb hfront hpath
    have hlen : path.length ≤ p.length := by
      have htake := congrArg List.length hpath
      rw [List.length_take] at htake
      omega
    have hsize : (pathMax + 2 ^ 64 - path.length) % 2 ^ 64 = pathMax - path.length := by
      simp only [pathMax] at hle ⊢
      omega
    have hname := hnames (.dread d de) w
    simp only [ftwLoopIn, ftwLoop]
    split
    · split
      · exact ih _ _ _ _ _ hb hfront hpath
      · rw [hsize]
        split
        · exact .ended hb fun h0 => absurd h0 (by decide)
        · rename_i hshort
          have hfits : trunkLength path + 1 + (io (.dread d de) w).1.dirent.name.length ≤
              pathMax := by omega
          rw [put_of_le (by rw [List.length_singleton]; omega), Except.bind,
            put_of_le (by rw [List.length_append, List.length_singleton]; omega), Except.bind]
          have hboth := hentry _ _ ((io (.dread d de) w).2, t)
            (hb.entry (htrunk.trans hlen) hname hfits)
          rw [hfront] at hboth
          rw [hfront]
          rcases hboth.cases with ⟨hx, hy⟩ | ⟨r, b', p', w', t', hx, hy, hb', hpath'⟩
          · rw [hx, hy]
            exact .outOfFuel
          · rw [hx, hy]
            simp only [Except.bind, Option.bind_some]
            split
            · rename_i hr
              exact .ended hb' fun h0 => absurd h0 hr
            · rename_i hr
              rw [not_not] at hr
              obtain ⟨hfront', hcut⟩ := take_entryPath path (io (.dread d de) w).1.dirent.name
              have hp' := hpath' hr
              exact ih _ _ _ _ _ hb' (hp' ▸ hfront') (hp' ▸ hcut)
    · rw [put_of_le (by rw [List.length_singleton]; omega), Except.bind]
      exact .ended (hb.cut hlen) fun _ => hpath

/-- **The walk**, by induction on the fuel. -/
theorem doWrappedFtwIn_agrees (hnames : ∀ c w, 0 ∉ (io c w).1.dirent.name) (uninit : Uninit)
    (fn : Callback σ τ) (pi : PathInfo) : ∀ (fuel : ℕ) (b : ℕ → UInt8) (p : CStr) (s : σ × τ),
      Holds b p → Agrees p (doWrappedFtwIn io uninit fn pi fuel b s)
        (doWrappedFtw io uninit fn pi fuel p s) := by
  intro fuel
  induction fuel with
  | zero => exact fun _ _ _ _ => .outOfFuel
  | succ fuel ih =>
    intro b p s hb
    obtain ⟨w, t⟩ := s
    have htrunk := hb.trunkLength
    have htake : p.take p.length = p := List.take_length
    simp only [doWrappedFtwIn, doWrappedFtw, hb.text, hb.strlen, htrunk]
    split
    · exact .ended hb fun h0 => absurd h0 (by decide)
    · cases fn pi p (io (.getstat p) w).1.stat ((io (.getstat p) w).2, t) with
      | none => exact .outOfFuel
      | some x =>
        obtain ⟨r, w', t'⟩ := x
        simp only [Option.bind_some]
        split
        · rename_i hr
          exact .ended hb fun h0 => absurd h0 hr
        · split
          · split
            · exact ftwLoopIn_agrees hnames ih hb.le _ _ _ _ _ _ _ hb rfl htake
            · exact .ended hb fun h0 => absurd h0 (by decide)
          · rw [put_of_le (by rw [List.length_singleton]; have := hb.le; omega), Except.bind]
            exact .ended (hb.cut le_rfl) fun _ => htake

/-- **No write behind the buffer**, whatever iomanX does: the walk on memory returns what the walk
on texts does. -/
theorem wrappedFtwIn_agrees (hnames : ∀ c w, 0 ∉ (io c w).1.dirent.name) (uninit : Uninit)
    (pathbuf : ℕ → UInt8) (fuel : ℕ) (pathPrefix : CStr) {path : CStr} (hpath : 0 ∉ path)
    (fn : Callback σ τ) (s : σ × τ) :
    wrappedFtwIn io uninit pathbuf fuel pathPrefix path fn s =
      match wrappedFtw io uninit fuel pathPrefix path fn s with
      | none => .error .outOfFuel
      | some x => .ok x := by
  unfold wrappedFtwIn wrappedFtw
  split
  · rfl
  · rename_i hlong
    have hle := Nat.not_lt.mp hlong
    have hholds : Holds (overlay pathbuf 0 (path ++ [0])) path := by
      constructor
      · exact hle
      · rw [window_overlay_take _ _ (by simp), List.take_left' rfl]
      · rw [overlay_of_mem (Nat.zero_le _) (by simp)]
        simp
      · exact hpath
    rw [put_of_le (by rw [List.length_append, List.length_singleton]; omega), Except.bind]
    have hboth := doWrappedFtwIn_agrees hnames uninit fn
      { origLen := path.length, pathPrefix := pathPrefix } fuel _ _ s hholds
    rcases hboth.cases with ⟨hx, hy⟩ | ⟨r, b, p, w, t, hx, hy, -, -⟩
    · rw [hx, hy]
      rfl
    · rw [hx, hy]
      rfl

end Agrees

/-! ## 4. The walk of a finite tree -/

/-- With enough fuel the walk calls the callback for the entries of the tree, in their order, and
returns 0, and the path buffer holds the root's path again. -/
def WalksWhole (io : IomanX σ) (uninit : Uninit) (fn : Callback σ τ) (pathPrefix root : CStr)
    (tree : Node) (w : σ) (t : τ) : Prop :=
  ∃ bound, ∀ fuel, bound ≤ fuel → ∃ w' t' vs,
    doWrappedFtw io uninit (recorded fn) { origLen := root.length, pathPrefix := pathPrefix } fuel
        root (w, t, []) = some (0, root, w', t', vs) ∧
      wrappedFtw io uninit fuel pathPrefix root (recorded fn) (w, t, []) = some (0, w', t', vs) ∧
      vs.map Visit.entry = tree.visits root

section Whole

variable {io : IomanX σ} {dirs : σ → ℤ → Option (List CStr)} {root : CStr} {tree : Node}
  {fn : Callback σ τ}

theorem walksWhole_of_clear (hfs : Serves io dirs root tree) (hfn : ReturnsZero dirs fn)
    (hfits : ∀ path x, Located root tree path x → path.length ≤ pathMax) (uninit : Uninit)
    (pathPrefix : CStr) (w : σ) (t : τ) (hclear : Clear root tree) :
    WalksWhole io uninit fn pathPrefix root tree w t := by
  obtain ⟨bound, r, path, w', t', new, hrun, -, hwhole, -⟩ := doWrappedFtw_tree
    { origLen := root.length, pathPrefix := pathPrefix } hfs hfn uninit hfits tree root w t [] .root
  obtain ⟨rfl, rfl, hnew⟩ := hwhole hclear
  refine ⟨bound, fun fuel hfuel => ⟨w', t', new, hrun fuel hfuel, ?_, hnew⟩⟩
  rw [wrappedFtw, if_neg (Nat.not_lt.mpr (hfits _ _ .root)), hrun fuel hfuel]
  rfl

theorem not_walksWhole (hfs : Serves io dirs root tree) (hfn : ReturnsZero dirs fn)
    (hfits : ∀ path x, Located root tree path x → path.length ≤ pathMax) (uninit : Uninit)
    (pathPrefix : CStr) (w : σ) (t : τ) (hnot : ¬ Clear root tree) :
    ¬ WalksWhole io uninit fn pathPrefix root tree w t := by
  rintro ⟨bound, hwhole⟩
  obtain ⟨bound', r, path, w', t', new, hrun, -, -, herror⟩ := doWrappedFtw_tree
    { origLen := root.length, pathPrefix := pathPrefix } hfs hfn uninit hfits tree root w t [] .root
  obtain ⟨w'', t'', vs, hzero, -, -⟩ := hwhole (max bound bound') (Nat.le_max_left _ _)
  rw [hrun _ (Nat.le_max_right _ _)] at hzero
  exact herror hnot (Prod.mk.inj (Option.some.inj hzero)).1

/-- **The walk of a finite tree.**  It visits all of it, and returns 0, exactly when the tree is
clear; and in no walk, whatever iomanX and the callback do, is a byte behind the path buffer
written. -/
theorem walk_iff (hfs : Serves io dirs root tree) (hfn : ReturnsZero dirs fn)
    (hfits : ∀ path x, Located root tree path x → path.length ≤ pathMax) (uninit : Uninit)
    (pathPrefix : CStr) (w : σ) (t : τ) :
    (WalksWhole io uninit fn pathPrefix root tree w t ↔ Clear root tree) ∧
      ∀ (io : IomanX σ) (fn : Callback σ τ) (pathbuf : ℕ → UInt8) (fuel : ℕ) (path : CStr)
        (s : σ × τ), (∀ c w, 0 ∉ (io c w).1.dirent.name) → 0 ∉ path →
          wrappedFtwIn io uninit pathbuf fuel pathPrefix path fn s ≠ .error .overrun := by
  constructor
  · constructor
    · intro hwhole
      by_contra hnot
      exact not_walksWhole hfs hfn hfits uninit pathPrefix w t hnot hwhole
    · exact walksWhole_of_clear hfs hfn hfits uninit pathPrefix w t
  · intro io fn pathbuf fuel path s hnames hpath
    rw [wrappedFtwIn_agrees hnames uninit pathbuf fuel pathPrefix hpath fn s]
    cases wrappedFtw io uninit fuel pathPrefix path fn s with
    | none => exact fun h => by cases h
    | some x => exact fun h => by cases h

end Whole

/-! ## 5. A directory with one file -/

/-- Open directories; the numbers from `count` on are free. -/
structure OpenDirs where
  count : ℕ
  names : ℤ → Option (List CStr)

def OpenDirs.dirs (w : OpenDirs) (d : ℤ) : Option (List CStr) :=
  if d < w.count then w.names d else none

def OpenDirs.set (w : OpenDirs) (d : ℤ) (names : Option (List CStr)) : OpenDirs :=
  { w with names := Function.update w.names d names }

/-- The iomanX that serves what `nodes` has at each path. -/
def treeIo (nodes : CStr → Option Node) : IomanX OpenDirs
  | .getstat path, w =>
    match nodes path with
    | some x => ({ stat := x.stat }, w)
    | none => ({ ret := -2 }, w)
  | .dopen path, w =>
    match nodes path with
    | some x => ({ ret := w.count }, { w with count := w.count + 1 }.set w.count
        (some (x.listing.map Prod.fst)))
    | none => ({ ret := -2 }, w)
  | .dread d _, w =>
    match w.dirs d with
    | some (n :: l) => ({ ret := 1, dirent := { name := n } }, w.set d (some l))
    | _ => ({}, w)
  | .close d, w => ({}, w.set d none)
  | _, w => ({}, w)

theorem OpenDirs.dirs_set {w : OpenDirs} {d : ℤ} {l : List CStr} (h : w.dirs d = some l)
    (names : Option (List CStr)) : (w.set d names).dirs = Function.update w.dirs d names := by
  have hlt : d < w.count := by
    by_contra hge
    rw [dirs, if_neg hge] at h
    cases h
  funext e
  simp only [dirs, set, Function.update_apply]
  by_cases he : e = d
  · rw [if_pos he, if_pos he, if_pos (he ▸ hlt)]
  · rw [if_neg he, if_neg he]

theorem OpenDirs.dirs_open (w : OpenDirs) (names : Option (List CStr)) :
    ({ w with count := w.count + 1 }.set w.count names).dirs =
      Function.update w.dirs w.count names := by
  funext e
  simp only [dirs, set, Function.update_apply]
  by_cases he : e = w.count
  · rw [if_pos he, if_pos he, if_pos (by omega)]
  · rw [if_neg he, if_neg he]
    refine if_congr ?_ rfl rfl
    push_cast
    omega

theorem treeIo_serves {nodes : CStr → Option Node} {root : CStr} {tree : Node}
    (h : ∀ path x, Located root tree path x → nodes path = some x) :
    Serves (treeIo nodes) OpenDirs.dirs root tree where
  getstat := by
    intro path x w hx
    have hgetstat : treeIo nodes (.getstat path) w = ({ stat := x.stat }, w) := by
      simp only [treeIo, h path x hx]
    rw [hgetstat]
    exact ⟨le_rfl, rfl, rfl⟩
  dopen := by
    intro path x w hx _
    simp only [treeIo, h path x hx]
    refine ⟨w.count, rfl, Int.natCast_nonneg _, ?_, OpenDirs.dirs_open w _⟩
    rw [OpenDirs.dirs, if_neg (lt_irrefl _)]
  dread_cons := by
    intro d n l w de hd
    have hdread : treeIo nodes (.dread d de) w =
        ({ ret := 1, dirent := { name := n } }, w.set d (some l)) := by
      simp only [treeIo, hd]
    rw [hdread]
    exact ⟨Int.one_pos, rfl, OpenDirs.dirs_set hd _⟩
  dread_nil := by
    intro d w de hd
    have hdread : treeIo nodes (.dread d de) w = ({}, w) := by
      simp only [treeIo, hd]
    rw [hdread]
    exact ⟨rfl, rfl⟩
  close := by
    intro d l w hd
    exact OpenDirs.dirs_set hd none

/-- A file. -/
def aFile : Node := .mk { mode := fioSIfreg } []

/-- A directory with the file `n`. -/
def oneEntry (n : CStr) : Node := .mk { mode := fioSIfdir } [(n, aFile)]

theorem located_oneEntry {root n path : CStr} {x : Node} (h : Located root (oneEntry n) path x) :
    (path = root ∧ x = oneEntry n) ∨ (path = entryPath root n ∧ x = aFile) := by
  rcases h.cases_root with h | ⟨m, y, -, hmem, -, hbelow⟩
  · exact .inl h
  · obtain ⟨rfl, rfl⟩ := Prod.mk.inj (List.mem_singleton.mp hmem)
    rcases hbelow.cases_root with h | ⟨-, -, hdir, -⟩
    · exact .inr h
    · exact absurd hdir (by decide)

/-- The path a backup begins with. -/
def backupRoot : CStr := mountPoint ++ [slash]

/-- The iomanX of the partition with the file `n`. -/
def oneEntryIo (n : CStr) : IomanX OpenDirs :=
  treeIo fun path =>
    if path = backupRoot then some (oneEntry n)
    else if path = entryPath backupRoot n then some aFile
    else none

theorem oneEntryIo_serves (n : CStr) (hn : n ≠ []) :
    Serves (oneEntryIo n) OpenDirs.dirs backupRoot (oneEntry n) := by
  refine treeIo_serves fun path x hx => ?_
  rcases located_oneEntry hx with ⟨rfl, rfl⟩ | ⟨rfl, rfl⟩
  · rw [if_pos rfl]
  · have hne : entryPath backupRoot n ≠ backupRoot := by
      intro heq
      have hlen := congrArg List.length heq
      have hpos := List.length_pos_of_ne_nil hn
      have htrunk : trunkLength backupRoot = 5 := rfl
      have hroot : backupRoot.length = 6 := rfl
      rw [length_entryPath, htrunk, hroot] at hlen
      omega
    rw [if_neg hne, if_pos rfl]

/-- The paths of this partition. -/
theorem oneEntry_fits {n : CStr} (hn : n.length ≤ 250) (path : CStr) (x : Node)
    (h : Located backupRoot (oneEntry n) path x) : path.length ≤ pathMax := by
  rcases located_oneEntry h with ⟨rfl, -⟩ | ⟨rfl, -⟩
  · decide
  · have htrunk : trunkLength backupRoot = 5 := rfl
    rw [length_entryPath, htrunk, pathMax]
    omega

/-- A callback that does nothing. -/
def doNothing : Callback OpenDirs Unit := fun _ _ _ s => some (0, s)

theorem doNothing_returnsZero : ReturnsZero OpenDirs.dirs doNothing :=
  fun _ _ _ w t => ⟨w, t, rfl, rfl⟩

/-- A name of one letter. -/
theorem walk_short_name : WalksWhole (oneEntryIo [97]) {} doNothing (ascii ['A', '/']) backupRoot
    (oneEntry [97]) ⟨0, fun _ => none⟩ () := by
  refine (walk_iff (oneEntryIo_serves [97] (by decide)) doNothing_returnsZero
    (oneEntry_fits (by decide)) {} _ _ _).1.mpr ?_
  intro path x n y h hdir hmem _ _
  rcases located_oneEntry h with ⟨rfl, rfl⟩ | ⟨-, rfl⟩
  · obtain ⟨rfl, -⟩ := Prod.mk.inj (List.mem_singleton.mp hmem)
    decide
  · exact absurd hmem List.not_mem_nil

/-- **A name of 250 bytes in the root of the partition**: the path of the file has 256 bytes and
fits the path buffer, and the walk ends with an error. -/
theorem walk_name_refused : ∃ n : CStr, n.length = 250 ∧
    Serves (oneEntryIo n) OpenDirs.dirs backupRoot (oneEntry n) ∧
      (∀ path x, Located backupRoot (oneEntry n) path x → path.length ≤ pathMax) ∧
      ¬ WalksWhole (oneEntryIo n) {} doNothing (ascii ['A', '/']) backupRoot (oneEntry n)
        ⟨0, fun _ => none⟩ () := by
  obtain ⟨n, hn⟩ : ∃ n : CStr, n = List.replicate 250 120 := ⟨_, rfl⟩
  have hlen : n.length = 250 := by rw [hn, List.length_replicate]
  have hne : n ≠ [] := List.ne_nil_of_length_pos (by omega)
  have hserves := oneEntryIo_serves n hne
  have hfits := oneEntry_fits (n := n) (by omega)
  refine ⟨n, hlen, hserves, hfits, not_walksWhole hserves doNothing_returnsZero hfits {} _ _ _ ?_⟩
  intro hclear
  have hdots : isDots n = false := by
    rw [hn]
    rfl
  have hdir : fioSIsdir fioSIfdir = true := by decide
  refine hclear backupRoot (oneEntry n) n aFile .root hdir List.mem_cons_self hdots rfl ?_
  have htrunk : trunkLength backupRoot = 5 := rfl
  rw [length_entryPath, htrunk, hlen, pathMax]

end PfsShell.Pfs2tar
