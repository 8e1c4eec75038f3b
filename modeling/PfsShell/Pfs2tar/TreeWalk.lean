/-
# The walk of a finite tree

A finite directory tree is a `Node`, and iomanX serves it when `getstat`, `dopen`, `dread` and
`close` answer as it says (`Serves`).  `Node.visits` are its entries, each with its path: a
directory before what it lists, in the order of the listing.

* `doWrappedFtw_tree`: the walk calls the callback for these entries and returns 0, if the tree is
  `Clear`, and else it ends with an error;
* a tree is clear when no entry directly in a directory whose path ends with a slash, as the root's
  does, has a path of exactly 256 bytes.
-/
import PfsShell.Pfs2tar.Framing

namespace PfsShell.Pfs2tar

open PfsShell.Lib

variable {σ τ : Type}

/-! ## 1. Trees -/

/-- A file or a directory: what `getstat` says of it, and what a directory lists.  The nodes of
`.` and `..` are not looked at. -/
inductive Node
  | mk (stat : IoxStat) (listing : List (CStr × Node))

namespace Node

def stat : Node → IoxStat
  | mk stat _ => stat

def listing : Node → List (CStr × Node)
  | mk _ listing => listing

/-- A node is reached through what it lists. -/
theorem byListing {P : Node → Prop}
    (h : ∀ x : Node, (∀ e ∈ x.listing, P e.2) → P x) : ∀ x, P x
  | mk stat listing => h _ fun e he =>
      have hlt : sizeOf e.2 < sizeOf (mk stat listing) := by
        obtain ⟨n, y⟩ := e
        have hmem : sizeOf (n, y) < sizeOf listing := List.sizeOf_lt_of_mem he
        simp only [Prod.mk.sizeOf_spec, mk.sizeOf_spec] at hmem ⊢
        omega
      byListing h e.2
termination_by x => sizeOf x
decreasing_by exact hlt

end Node

/-- The length of a path without the slash at its end. -/
def trunkLength (path : CStr) : ℕ :=
  if path.getLast? = some slash then path.length - 1 else path.length

/-- The path of an entry of a directory. -/
def entryPath (path n : CStr) : CStr := path.take (trunkLength path) ++ slash :: n

mutual

/-- The entries of a tree, with their paths and what `getstat` says of them. -/
def Node.visits : CStr → Node → List (CStr × IoxStat)
  | path, .mk stat listing =>
    (path, stat) :: if fioSIsdir stat.mode then listedVisits path listing else []

/-- Those of the entries of the directory at `path`. -/
def listedVisits : CStr → List (CStr × Node) → List (CStr × IoxStat)
  | _, [] => []
  | path, (n, x) :: rest =>
    (if isDots n then [] else x.visits (entryPath path n)) ++ listedVisits path rest

end

theorem Node.visits_eq (path : CStr) (x : Node) : x.visits path =
    (path, x.stat) :: if fioSIsdir x.stat.mode then listedVisits path x.listing else [] := by
  cases x with
  | mk stat listing => rw [visits]; rfl

/-- The node `x` is at `path` in the tree at `root`. -/
inductive Located (root : CStr) (tree : Node) : CStr → Node → Prop
  | root : Located root tree root tree
  | entry {path n : CStr} {x y : Node} (h : Located root tree path x)
      (hdir : fioSIsdir x.stat.mode = true) (hmem : (n, y) ∈ x.listing)
      (hdots : isDots n = false) : Located root tree (entryPath path n) y

/-- No entry directly in a directory whose path ends with a slash has a path of 256 bytes. -/
def Clear (root : CStr) (tree : Node) : Prop :=
  ∀ path x n y, Located root tree path x → fioSIsdir x.stat.mode = true → (n, y) ∈ x.listing →
    isDots n = false → path.getLast? = some slash → (entryPath path n).length ≠ pathMax

/-- iomanX serves the tree: `dirs` are the open directories, each with the names it still lists. -/
structure Serves (io : IomanX σ) (dirs : σ → ℤ → Option (List CStr)) (root : CStr)
    (tree : Node) : Prop where
  getstat : ∀ {path x} w, Located root tree path x → 0 ≤ (io (.getstat path) w).1.ret ∧
    (io (.getstat path) w).1.stat = x.stat ∧ dirs (io (.getstat path) w).2 = dirs w
  dopen : ∀ {path x} w, Located root tree path x → fioSIsdir x.stat.mode = true →
    ∃ d, (io (.dopen path) w).1.ret = d ∧ 0 ≤ d ∧ dirs w d = none ∧
      dirs (io (.dopen path) w).2 = Function.update (dirs w) d (some (x.listing.map Prod.fst))
  dread_cons : ∀ {d n l} w de, dirs w d = some (n :: l) → 0 < (io (.dread d de) w).1.ret ∧
    (io (.dread d de) w).1.dirent.name = n ∧
      dirs (io (.dread d de) w).2 = Function.update (dirs w) d (some l)
  dread_nil : ∀ {d} w de, dirs w d = some [] → (io (.dread d de) w).1.ret = 0 ∧
    dirs (io (.dread d de) w).2 = dirs w
  close : ∀ {d l} w, dirs w d = some l →
    dirs (io (.close d) w).2 = Function.update (dirs w) d none

/-- The callback returns 0, and leaves the open directories alone. -/
def ReturnsZero (dirs : σ → ℤ → Option (List CStr)) (fn : Callback σ τ) : Prop :=
  ∀ pi path st w t, ∃ w' t', fn pi path st (w, t) = some (0, w', t') ∧ dirs w' = dirs w

/-! ## 2. Paths -/

section Paths

variable {root path n q : CStr} {tree x y : Node}

theorem trunkLength_le (path : CStr) : trunkLength path ≤ path.length := by
  unfold trunkLength
  split
  · omega
  · exact le_rfl

theorem length_entryPath (path n : CStr) :
    (entryPath path n).length = trunkLength path + 1 + n.length := by
  have hle := trunkLength_le path
  rw [entryPath, List.length_append, List.length_take, List.length_cons]
  omega

/-- What the walk keeps of an entry's path is the directory's. -/
theorem take_entryPath (path n : CStr) :
    (entryPath path n).take (trunkLength path) = path.take (trunkLength path) ∧
      (entryPath path n).take path.length = path := by
  have hle := trunkLength_le path
  have hlen : (path.take (trunkLength path)).length = trunkLength path := by
    rw [List.length_take]
    omega
  refine ⟨by rw [entryPath, List.take_left' hlen], ?_⟩
  by_cases hslash : path.getLast? = some slash
  · obtain ⟨p, rfl⟩ : ∃ p, path = p ++ [slash] := by
      obtain ⟨p, hp⟩ := List.getLast?_eq_some_iff.mp hslash
      exact ⟨p, hp⟩
    have htrunk : trunkLength (p ++ [slash]) = p.length := by
      rw [trunkLength, if_pos hslash, List.length_append, List.length_singleton,
        Nat.add_sub_cancel]
    have hsplit : entryPath (p ++ [slash]) n = (p ++ [slash]) ++ n := by
      rw [entryPath, htrunk, List.take_left' rfl, List.append_assoc, List.singleton_append]
    rw [hsplit, List.take_left' rfl]
  · have htrunk : trunkLength path = path.length := if_neg hslash
    rw [entryPath, htrunk, List.take_length, List.take_left' rfl]

theorem Located.trans (h : Located root tree path x) (h' : Located path x q y) :
    Located root tree q y := by
  induction h' with
  | root => exact h
  | entry _ hdir hmem hdots ih => exact ih.entry hdir hmem hdots

/-- A node is at the root, or in one of the root's entries. -/
theorem Located.cases_root (h : Located root tree path x) : (path = root ∧ x = tree) ∨
    ∃ n y, fioSIsdir tree.stat.mode = true ∧ (n, y) ∈ tree.listing ∧ isDots n = false ∧
      Located (entryPath root n) y path x := by
  induction h with
  | root => exact .inl ⟨rfl, rfl⟩
  | @entry path m x z h hdir hmem hdots ih =>
    refine .inr ?_
    rcases ih with ⟨rfl, rfl⟩ | ⟨n, y, hdir', hmem', hdots', hbelow⟩
    · exact ⟨m, z, hdir, hmem, hdots, .root⟩
    · exact ⟨n, y, hdir', hmem', hdots', hbelow.entry hdir hmem hdots⟩

/-- What the entries that a directory still lists need. -/
def ClearListing (path : CStr) (es : List (CStr × Node)) : Prop :=
  ∀ e ∈ es, isDots e.1 = false →
    (path.getLast? = some slash → (entryPath path e.1).length ≠ pathMax) ∧
      Clear (entryPath path e.1) e.2

/-- A directory is clear when what it lists is. -/
theorem clear_iff_listing (hdir : fioSIsdir x.stat.mode = true) :
    Clear path x ↔ ClearListing path x.listing := by
  constructor
  · intro h e he hdots
    refine ⟨h path x e.1 e.2 .root hdir he hdots, fun q y m z hq => ?_⟩
    exact h q y m z ((Located.root.entry hdir he hdots).trans hq)
  · intro h q y m z hq hdir' hmem hdots hslash
    rcases hq.cases_root with ⟨rfl, rfl⟩ | ⟨n, u, -, hmem', hdots', hbelow⟩
    · exact (h (m, z) hmem hdots).1 hslash
    · exact (h (n, u) hmem' hdots').2 q y m z hbelow hdir' hmem hdots hslash

/-- What is no directory is clear. -/
theorem clear_of_not_dir (hdir : ¬ fioSIsdir x.stat.mode = true) : Clear path x := by
  intro q y m z hq hdir' _ _ _
  rcases hq.cases_root with ⟨-, rfl⟩ | ⟨-, -, hdir'', -⟩
  · exact absurd hdir' hdir
  · exact absurd hdir'' hdir

/-- The test of the walk for a name that is too long, when the path of the entry has at most 256
bytes. -/
theorem guard_iff (hle : path.length ≤ pathMax) (hfits : (entryPath path n).length ≤ pathMax) :
    pathMax - path.length ≤ n.length ↔
      path.getLast? = some slash ∧ (entryPath path n).length = pathMax := by
  have hlen := length_entryPath path n
  by_cases hslash : path.getLast? = some slash
  · have hpos : 0 < path.length := List.length_pos_of_ne_nil fun h => by
      rw [h] at hslash
      cases hslash
    have htrunk : trunkLength path = path.length - 1 := if_pos hslash
    rw [and_iff_right hslash]
    omega
  · have htrunk : trunkLength path = path.length := if_neg hslash
    refine iff_of_false ?_ fun h => hslash h.1
    omega

end Paths

/-! ## 3. The loop over a directory -/

section Walk

variable {io : IomanX σ} {dirs : σ → ℤ → Option (List CStr)} {root : CStr} {tree : Node}
  {fn : Callback σ τ} {pi : PathInfo}

/-- A visit as an entry of the tree. -/
def Visit.entry (v : Visit σ) : CStr × IoxStat := (v.inPath, v.st)

/-- A walk of the tree `x` at `path` that begins in `w`: what it returns, as soon as the fuel is
enough, and the calls of the callback that it makes. -/
def Walks (dirs : σ → ℤ → Option (List CStr)) (walk : ℕ → CStr → σ × τ × List (Visit σ) →
      Option (ℤ × CStr × σ × τ × List (Visit σ)))
    (path : CStr) (x : Node) (w : σ) (t : τ) (vs : List (Visit σ)) : Prop :=
  ∃ bound r path' w' t' new,
    (∀ fuel, bound ≤ fuel → walk fuel path (w, t, vs) = some (r, path', w', t', vs ++ new)) ∧
      dirs w' = dirs w ∧
      (Clear path x → r = 0 ∧ path' = path ∧ new.map Visit.entry = x.visits path) ∧
      (¬ Clear path x → r ≠ 0)

/-- The loop over a directory that still lists `es`, likewise.  `loop` is given the fuel of the
walks below, and its own. -/
def LoopWalks (dirs : σ → ℤ → Option (List CStr))
    (loop : ℕ → ℕ → Option (ℤ × CStr × σ × τ × List (Visit σ))) (d : ℤ) (path : CStr)
    (es : List (CStr × Node)) (w : σ) (vs : List (Visit σ)) : Prop :=
  ∃ bound r buffer' w' t' new,
    (∀ fuel k, bound ≤ fuel → es.length < k →
      loop fuel k = some (r, buffer', w', t', vs ++ new)) ∧
      dirs w' = Function.update (dirs w) d none ∧
      (ClearListing path es →
        r = 0 ∧ buffer' = path ∧ new.map Visit.entry = listedVisits path es) ∧
      (¬ ClearListing path es → r ≠ 0)

section Rounds

variable {loop loop' : ℕ → ℕ → Option (ℤ × CStr × σ × τ × List (Visit σ))} {d : ℤ} {path n : CStr}
  {y : Node} {es : List (CStr × Node)} {w w' : σ} {vs : List (Visit σ)}

/-- A round that passes an entry, or walks it to its end. -/
theorem LoopWalks.next (bound : ℕ) (new : List (Visit σ)) {l : Option (List CStr)}
    (hnew : new.map Visit.entry = if isDots n then [] else y.visits (entryPath path n))
    (hclear : ClearListing path ((n, y) :: es) ↔ ClearListing path es)
    (hstep : ∀ fuel k, bound ≤ fuel → loop fuel (k + 1) = loop' fuel k)
    (hdirs : dirs w' = Function.update (dirs w) d l)
    (h : LoopWalks dirs loop' d path es w' (vs ++ new)) :
    LoopWalks dirs loop d path ((n, y) :: es) w vs := by
  obtain ⟨bound', r, buffer', u, t', more, hrun, hdirs', hdone, hnot⟩ := h
  refine ⟨max bound bound', r, buffer', u, t', new ++ more, fun fuel k hfuel hk => ?_, ?_, ?_, ?_⟩
  · obtain ⟨k, rfl⟩ := Nat.exists_eq_succ_of_ne_zero (Nat.ne_of_gt (Nat.zero_lt_of_lt hk))
    rw [hstep fuel k ((Nat.le_max_left ..).trans hfuel), ← List.append_assoc]
    exact hrun fuel k ((Nat.le_max_right ..).trans hfuel) (Nat.lt_of_succ_lt_succ hk)
  · rw [hdirs', hdirs, Function.update_idem]
  · intro hall
    obtain ⟨rfl, rfl, hmore⟩ := hdone (hclear.mp hall)
    refine ⟨rfl, rfl, ?_⟩
    rw [List.map_append, hnew, hmore, listedVisits]
  · exact fun hall => hnot fun hrest => hall (hclear.mpr hrest)

/-- A round that ends the loop with an error. -/
theorem LoopWalks.stop (bound : ℕ) (new : List (Visit σ)) (buffer' : CStr) (t' : τ) {r : ℤ}
    (hr : r ≠ 0)
    (hclear : ¬ClearListing path ((n, y) :: es))
    (hstep : ∀ fuel k, bound ≤ fuel → loop fuel (k + 1) = some (r, buffer', w', t', vs ++ new))
    (hdirs : dirs w' = Function.update (dirs w) d none) :
    LoopWalks dirs loop d path ((n, y) :: es) w vs := by
  refine ⟨bound, r, buffer', w', t', new, fun fuel k hfuel hk => ?_, hdirs,
    fun h => absurd h hclear, fun _ => hr⟩
  obtain ⟨k, rfl⟩ := Nat.exists_eq_succ_of_ne_zero (Nat.ne_of_gt (Nat.zero_lt_of_lt hk))
  exact hstep fuel k hfuel

theorem clearListing_dots (hdots : isDots n = true) :
    ClearListing path ((n, y) :: es) ↔ ClearListing path es := by
  refine List.forall_mem_cons.trans (and_iff_right fun hno => ?_)
  rw [hdots] at hno
  cases hno

theorem clearListing_cons (hno : isDots n = false) :
    ClearListing path ((n, y) :: es) ↔
      ((path.getLast? = some slash → (entryPath path n).length ≠ pathMax) ∧
        Clear (entryPath path n) y) ∧ ClearListing path es := by
  simp only [ClearListing, List.forall_mem_cons, hno, forall_const]

end Rounds

variable (fn pi) in
/-- **The loop over a directory**, while it still lists `es`.  By induction on them. -/
theorem ftwLoop_tree (hfs : Serves io dirs root tree) (uninit : Uninit) {path : CStr} {x : Node}
    (hx : Located root tree path x) (hdir : fioSIsdir x.stat.mode = true)
    (hfits : ∀ q y, Located root tree q y → q.length ≤ pathMax) {d : ℤ} :
    ∀ (es : List (CStr × Node)) (de : IoxDirent) (buffer : CStr) (w : σ) (t : τ)
      (vs : List (Visit σ)),
      (∀ e ∈ es, e ∈ x.listing ∧ ∀ w t vs, isDots e.1 = false → Walks dirs
        (doWrappedFtw io uninit (recorded fn) pi) (entryPath path e.1) e.2 w t vs) →
      dirs w d = some (es.map Prod.fst) →
      buffer.take (trunkLength path) = path.take (trunkLength path) →
      buffer.take path.length = path →
      LoopWalks dirs (fun fuel k =>
        ftwLoop io (doWrappedFtw io uninit (recorded fn) pi fuel) d path.length
          (trunkLength path) k de buffer (w, t, vs)) d path es w vs := by
  intro es
  induction es with
  | nil =>
    intro de buffer w t vs _ hdirs _ hpath
    obtain ⟨hret, hsame⟩ := hfs.dread_nil w de hdirs
    generalize hio : io (.dread d de) w = res at hret hsame
    obtain ⟨reply, w₁⟩ := res
    simp only at hret hsame
    have hclose := hfs.close w₁ (hsame ▸ hdirs)
    refine ⟨0, 0, path, (io (.close d) w₁).2, t, [], fun fuel k _ hk => ?_,
      by rw [hclose, hsame], fun _ => ⟨rfl, rfl, rfl⟩, fun h => absurd (fun e he => ?_) h⟩
    · obtain ⟨k, rfl⟩ := Nat.exists_eq_succ_of_ne_zero (Nat.ne_of_gt hk)
      dsimp only
      rw [ftwLoop_end hio hret, hpath, List.append_nil]
    · exact absurd he List.not_mem_nil
  | cons e es ih =>
    intro de buffer w t vs hes hdirs htrunk hpath
    obtain ⟨n, y⟩ := e
    obtain ⟨hret, hname, hnext⟩ := hfs.dread_cons w de hdirs
    generalize hio : io (.dread d de) w = res at hret hname hnext
    obtain ⟨reply, w₁⟩ := res
    simp only at hret hname hnext
    subst hname
    have hdirs₁ : dirs w₁ d = some (es.map Prod.fst) := by rw [hnext, Function.update_self]
    have hrest := fun e he => hes e (List.mem_cons_of_mem _ he)
    by_cases hdots : isDots reply.dirent.name = true
    · -- the two dots are passed over
      refine .next 0 [] (if_pos hdots).symm (clearListing_dots hdots)
        (fun fuel k _ => ftwLoop_dots hio hret hdots k) hnext ?_
      rw [List.append_nil]
      exact ih reply.dirent buffer w₁ t vs hrest hdirs₁ htrunk hpath
    have hno : isDots reply.dirent.name = false := Bool.not_eq_true _ ▸ hdots
    have hmem := (hes (reply.dirent.name, y) List.mem_cons_self).1
    have hchild : Located root tree (entryPath path reply.dirent.name) y :=
      hx.entry hdir hmem hno
    have hguard := guard_iff (n := reply.dirent.name) (hfits _ _ hx) (hfits _ _ hchild)
    by_cases hlong : pathMax - path.length ≤ reply.dirent.name.length
    · -- the name is refused
      obtain ⟨hslash, hexact⟩ := hguard.mp hlong
      have hclose : dirs (io (.close d) w₁).2 = Function.update (dirs w) d none := by
        rw [hfs.close w₁ hdirs₁, hnext, Function.update_idem]
      refine .stop 0 [] buffer t (by decide : (-1 : ℤ) ≠ 0)
        (fun h => ((clearListing_cons hno).mp h).1.1 hslash hexact) (fun fuel k _ => ?_) hclose
      rw [List.append_nil]
      exact ftwLoop_long hio hret hdots hlong k
    have hshort : path.getLast? = some slash →
        (entryPath path reply.dirent.name).length ≠ pathMax :=
      fun hslash hexact => hlong (hguard.mpr ⟨hslash, hexact⟩)
    obtain ⟨bound₁, r₁, path₁, w₂, t₂, new₁, hrun₁, hdirs₂, hclear₁, hnot₁⟩ :=
      (hes (reply.dirent.name, y) List.mem_cons_self).2 w₁ t vs hno
    have hentry : ∀ fuel, bound₁ ≤ fuel → doWrappedFtw io uninit (recorded fn) pi fuel
        (buffer.take (trunkLength path) ++ slash :: reply.dirent.name) (w₁, t, vs) =
          some (r₁, path₁, w₂, t₂, vs ++ new₁) := by
      rw [htrunk]
      exact hrun₁
    by_cases hsub : Clear (entryPath path reply.dirent.name) y
    · obtain ⟨rfl, rfl, hnew₁⟩ := hclear₁ hsub
      obtain ⟨htrunk', hpath'⟩ := take_entryPath path reply.dirent.name
      refine .next bound₁ new₁ (by rw [if_neg hdots]; exact hnew₁)
        ((clearListing_cons hno).trans (and_iff_right ⟨hshort, hsub⟩)) (fun fuel k hfuel => ?_)
        (by rw [hdirs₂, hnext])
        (ih reply.dirent _ w₂ t₂ (vs ++ new₁) hrest (by rw [hdirs₂, hdirs₁]) htrunk' hpath')
      exact (ftwLoop_entry hio hret hdots hlong (hentry fuel hfuel) k).trans
        (if_neg (not_not.mpr rfl))
    · -- the walk below ends with an error
      have herror := hnot₁ hsub
      have hclose : dirs (io (.close d) w₂).2 = Function.update (dirs w) d none := by
        rw [hfs.close w₂ (by rw [hdirs₂, hdirs₁]), hdirs₂, hnext, Function.update_idem]
      refine .stop bound₁ new₁ path₁ t₂ herror (fun h => hsub ((clearListing_cons hno).mp h).1.2)
        (fun fuel k hfuel => ?_) hclose
      exact (ftwLoop_entry hio hret hdots hlong (hentry fuel hfuel) k).trans (if_pos herror)

/-! ## 4. The whole tree -/

variable (pi) in
/-- **The walk of a tree**, from any place in it.  By induction on what is listed there. -/
theorem doWrappedFtw_tree (hfs : Serves io dirs root tree) (hfn : ReturnsZero dirs fn)
    (uninit : Uninit) (hfits : ∀ q y, Located root tree q y → q.length ≤ pathMax) (x : Node) :
    ∀ (path : CStr) (w : σ) (t : τ) (vs : List (Visit σ)), Located root tree path x →
      Walks dirs (doWrappedFtw io uninit (recorded fn) pi) path x w t vs := by
  induction x using Node.byListing with
  | h x ih =>
    intro path w t vs hx
    obtain ⟨hret, hstat, hsame⟩ := hfs.getstat w hx
    generalize hio : io (.getstat path) w = res at hret hstat hsame
    obtain ⟨reply, w₁⟩ := res
    simp only at hret hstat hsame
    obtain ⟨w₂, t₂, hcall, hsame₂⟩ := hfn pi path reply.stat w₁ t
    have hrec : recorded fn pi path reply.stat (w₁, t, vs) =
        some (0, w₂, t₂, vs ++ [⟨pi, path, reply.stat, w₁⟩]) := by
      rw [recorded, hcall, Option.map_some]
    have hvisit : Visit.entry ⟨pi, path, reply.stat, w₁⟩ = (path, x.stat) := by
      rw [Visit.entry, hstat]
    by_cases hdir : fioSIsdir x.stat.mode = true
    · obtain ⟨d, hd, hpos, hfree, hopen⟩ := hfs.dopen w₂ hx hdir
      generalize hio₃ : io (.dopen path) w₂ = res at hd hopen
      obtain ⟨dir, w₃⟩ := res
      simp only at hd hopen
      subst hd
      obtain ⟨bound, r, path', w', t', new, hrun, hdirs, hclear, hnot⟩ := ftwLoop_tree fn pi
        hfs uninit hx hdir hfits x.listing uninit.dirent path w₃ t₂
        (vs ++ [⟨pi, path, reply.stat, w₁⟩])
        (fun e he => ⟨he, fun w t vs hno => ih e he _ w t vs (hx.entry hdir he hno)⟩)
        (by rw [hopen, Function.update_self]) rfl List.take_length
      refine ⟨max bound (x.listing.length + 1) + 1, r, path', w', t',
        ⟨pi, path, reply.stat, w₁⟩ :: new, fun fuel hfuel => ?_, ?_, ?_, ?_⟩
      · obtain ⟨fuel, rfl⟩ := Nat.exists_eq_succ_of_ne_zero (show fuel ≠ 0 by omega)
        have hloop := hrun fuel fuel (by omega) (by omega)
        rw [List.append_assoc, List.singleton_append] at hloop
        have hdir' : fioSIsdir reply.stat.mode = true := hstat ▸ hdir
        simp only [doWrappedFtw, hio, if_neg (not_lt.mpr hret), hrec, Option.bind_some, ne_eq,
          not_true_eq_false, if_false, if_pos hdir', hio₃, if_pos hpos]
        exact hloop
      · rw [hdirs, hopen, Function.update_idem, ← hfree, Function.update_eq_self, hsame₂, hsame]
      · intro h
        obtain ⟨rfl, rfl, hnew⟩ := hclear ((clear_iff_listing hdir).mp h)
        refine ⟨rfl, rfl, ?_⟩
        rw [List.map_cons, hnew, hvisit, Node.visits_eq, if_pos hdir]
      · exact fun h => hnot fun hlisting => h ((clear_iff_listing hdir).mpr hlisting)
    · refine ⟨1, 0, path, w₂, t₂, [⟨pi, path, reply.stat, w₁⟩], fun fuel hfuel => ?_,
        by rw [hsame₂, hsame], fun _ => ⟨rfl, rfl, ?_⟩,
        fun h => absurd (clear_of_not_dir hdir) h⟩
      · obtain ⟨fuel, rfl⟩ := Nat.exists_eq_succ_of_ne_zero (show fuel ≠ 0 by omega)
        have hdir' : ¬ fioSIsdir reply.stat.mode = true := hstat ▸ hdir
        simp only [doWrappedFtw, hio, if_neg (not_lt.mpr hret), hrec, Option.bind_some, ne_eq,
          not_true_eq_false, if_false, if_neg hdir', List.take_length]
      · rw [List.map_singleton, hvisit, Node.visits_eq, if_neg hdir]

end Walk

end PfsShell.Pfs2tar
