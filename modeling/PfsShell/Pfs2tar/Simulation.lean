/-
# Two backups side by side

The walk and the loop over the partitions are programs over iomanX and a callback.  What they
preserve is what iomanX and the callback preserve (`doWrappedFtw_only`, `eachPart_only`), and when
iomanX and the callback are followed by others, so are they (`doWrappedFtw_follows`,
`eachPart_follows`).
-/
import PfsShell.Lib.Partial
import PfsShell.Pfs2tar.Backup

namespace PfsShell.Pfs2tar

open PfsShell.Lib

variable {σ σ' τ τ' : Type}

/-! ## 1. What is preserved -/

section Preserved

variable {io : IomanX σ} {X : σ × τ → Prop}

/-- A call of iomanX preserves `X`. -/
def Preserves (io : IomanX σ) (X : σ × τ → Prop) : Prop :=
  ∀ c w t, X (w, t) → X ((io c w).2, t)

/-- The calls of the walk preserve `X`.  It reads and closes directories only on descriptors that
`dopen` returned, and `D` holds of these. -/
structure WalkPreserves (io : IomanX σ) (D : ℤ → Prop) (X : σ × τ → Prop) : Prop where
  getstat : ∀ path w t, X (w, t) → X ((io (.getstat path) w).2, t)
  dopen : ∀ path w t, X (w, t) → X ((io (.dopen path) w).2, t) ∧ D (io (.dopen path) w).1.ret
  dread : ∀ d de w t, D d → X (w, t) → X ((io (.dread d de) w).2, t)
  close : ∀ d w t, D d → X (w, t) → X ((io (.close d) w).2, t)

theorem Preserves.walk (hio : Preserves io X) : WalkPreserves io (fun _ => True) X where
  getstat path := hio (.getstat path)
  dopen path w t hX := ⟨hio (.dopen path) w t hX, trivial⟩
  dread d de w t _ := hio (.dread d de) w t
  close d w t _ := hio (.close d) w t

variable {D : ℤ → Prop}

/-- The loop from its `dread` on, when the rest of the loop preserves `X`. -/
theorem ftwLoop_only_of_dread (hio : WalkPreserves io D X)
    {doEntry : CStr → σ × τ → Option (ℤ × CStr × σ × τ)}
    (hentry : ∀ p s, X s → Only (fun r => X r.2.2) (doEntry p s)) {d : ℤ} (hd : D d) {l j fuel : ℕ}
    (ih : ∀ (de : IoxDirent) (path : CStr) (s : σ × τ), X s →
      Only (fun r => X r.2.2) (ftwLoop io doEntry d l j fuel de path s))
    {de : IoxDirent} {path : CStr} {w : σ} {t : τ} (hread : X ((io (.dread d de) w).2, t)) :
    Only (fun r => X r.2.2) (ftwLoop io doEntry d l j (fuel + 1) de path (w, t)) := by
  have hclose : ∀ w t, X (w, t) → X ((io (.close d) w).2, t) := fun w t => hio.close d w t hd
  simp only [ftwLoop]
  split
  · split
    · exact ih _ _ _ hread
    · split
      · exact .some (hclose _ _ hread)
      · refine (hentry _ _ hread).bind fun r hr => ?_
        split
        · exact .some (hclose _ _ hr)
        · exact ih _ _ _ hr
  · exact .some (hclose _ _ hread)

theorem ftwLoop_only (hio : WalkPreserves io D X)
    {doEntry : CStr → σ × τ → Option (ℤ × CStr × σ × τ)}
    (hentry : ∀ p s, X s → Only (fun r => X r.2.2) (doEntry p s)) {d : ℤ} (hd : D d) {l j : ℕ} :
    ∀ (fuel : ℕ) (de : IoxDirent) (path : CStr) (s : σ × τ), X s →
      Only (fun r => X r.2.2) (ftwLoop io doEntry d l j fuel de path s) := by
  intro fuel
  induction fuel with
  | zero => exact fun _ _ _ _ => .none
  | succ fuel ih =>
    exact fun de path s hX => ftwLoop_only_of_dread hio hentry hd ih (hio.dread _ _ _ _ hd hX)

/-- What follows the `getstat` of an entry. -/
theorem doWrappedFtw_only_of_getstat (hio : WalkPreserves io D X) (uninit : Uninit)
    {fn : Callback σ τ} (hfn : ∀ pi p st s, X s → Only (fun r => X r.2) (fn pi p st s))
    {pi : PathInfo} {fuel : ℕ} (ih : ∀ (path : CStr) (s : σ × τ), X s →
      Only (fun r => X r.2.2) (doWrappedFtw io uninit fn pi fuel path s)) {path : CStr} {w : σ}
    {t : τ} (hstat : X ((io (.getstat path) w).2, t)) :
    Only (fun r => X r.2.2) (doWrappedFtw io uninit fn pi (fuel + 1) path (w, t)) := by
  simp only [doWrappedFtw]
  split
  · exact .some hstat
  · refine (hfn _ _ _ _ hstat).bind fun r hr => ?_
    split
    · exact .some hr
    · split
      · obtain ⟨hopen, hd⟩ := hio.dopen path _ _ hr
        split
        · exact ftwLoop_only hio ih hd _ _ _ _ hopen
        · exact .some hopen
      · exact .some hr

theorem doWrappedFtw_only (hio : WalkPreserves io D X) (uninit : Uninit) {fn : Callback σ τ}
    (hfn : ∀ pi p st s, X s → Only (fun r => X r.2) (fn pi p st s)) (pi : PathInfo) :
    ∀ (fuel : ℕ) (path : CStr) (s : σ × τ), X s →
      Only (fun r => X r.2.2) (doWrappedFtw io uninit fn pi fuel path s) := by
  intro fuel
  induction fuel with
  | zero => exact fun _ _ _ => .none
  | succ fuel ih =>
    exact fun path s hX => doWrappedFtw_only_of_getstat hio uninit hfn ih (hio.getstat _ _ _ hX)

/-- What follows the `dread` of a partition, when the rest of the loop preserves `X`. -/
theorem partLoop_only_of_dread (hio : Preserves io X) {say : Message → τ → τ}
    (hsay : ∀ m w t, X (w, t) → X (w, say m t)) {flag : ℕ} {arg : Option CStr}
    {doPart : CStr → σ × τ → Option (σ × τ)} (hpart : ∀ p s, X s → Only X (doPart p s)) {dh : ℤ}
    {fuel : ℕ} (ih : ∀ (de : IoxDirent) (s : σ × τ), X s →
      Only X (partLoop io say flag arg doPart dh fuel de s)) {de : IoxDirent} {w : σ} {t : τ}
    (hread : X ((io (.dread dh de) w).2, t)) :
    Only X (partLoop io say flag arg doPart dh (fuel + 1) de (w, t)) := by
  simp only [partLoop]
  split
  · split
    · have hmount := hio (.mount mountPoint
        ((hdd ++ (io (.dread dh de) w).1.dirent.name).take 255) flag) _ _ hread
      split
      · exact ih _ _ (hsay _ _ _ hmount)
      · refine (hpart _ _ hmount).bind fun s hs => ?_
        exact ih _ _ (hio _ _ _ hs)
    · exact ih _ _ hread
  · exact .some hread

theorem partLoop_only (hio : Preserves io X) {say : Message → τ → τ}
    (hsay : ∀ m w t, X (w, t) → X (w, say m t)) {flag : ℕ} {arg : Option CStr}
    {doPart : CStr → σ × τ → Option (σ × τ)} (hpart : ∀ p s, X s → Only X (doPart p s)) {dh : ℤ} :
    ∀ (fuel : ℕ) (de : IoxDirent) (s : σ × τ), X s →
      Only X (partLoop io say flag arg doPart dh fuel de s) := by
  intro fuel
  induction fuel with
  | zero => exact fun _ _ _ => .none
  | succ fuel ih =>
    exact fun de s hX => partLoop_only_of_dread hio hsay hpart ih (hio _ _ _ hX)

/-- What follows the `dopen` of `hdd0:`. -/
theorem eachPart_only_of_dopen (hio : Preserves io X) (uninit : Uninit) {say : Message → τ → τ}
    (hsay : ∀ m w t, X (w, t) → X (w, say m t)) {flag : ℕ} {arg : Option CStr}
    {doPart : CStr → σ × τ → Option (σ × τ)} (hpart : ∀ p s, X s → Only X (doPart p s)) (fuel : ℕ)
    {w : σ} {t : τ} (hopen : X ((io (.dopen hdd) w).2, t)) :
    Only (fun r => X r.2) (eachPart io uninit say flag arg doPart fuel (w, t)) := by
  simp only [eachPart]
  split
  · refine (partLoop_only hio hsay hpart fuel _ _ hopen).map fun s hs => ?_
    have hclose := hio (.close (io (.dopen hdd) w).1.ret) s.1 s.2 hs
    split
    · exact hsay _ _ _ hclose
    · exact hclose
  · exact .some (hsay _ _ _ hopen)

end Preserved

/-! ## 2. What is followed -/

/-- Each call of `io'` is followed by the same call of `io`, with the same reply, or the state of
`io'` is lost. -/
structure Followed (io' : IomanX σ') (io : IomanX σ) (L : σ' × τ' → Prop)
    (R : σ' × τ' → σ × τ → Prop) : Prop where
  lost : Preserves io' L
  step : ∀ c w' t' w t, R (w', t') (w, t) → L ((io' c w').2, t') ∨
    (io' c w').1 = (io c w).1 ∧ R ((io' c w').2, t') ((io c w).2, t)

/-- The same value and the same path, and related states. -/
def SameWay (R : σ' × τ' → σ × τ → Prop) (r' : ℤ × CStr × σ' × τ') (r : ℤ × CStr × σ × τ) : Prop :=
  r'.1 = r.1 ∧ r'.2.1 = r.2.1 ∧ R r'.2.2 r.2.2

/-- The same value, and related states. -/
def SameEnd (R : σ' × τ' → σ × τ → Prop) (r' : ℤ × σ' × τ') (r : ℤ × σ × τ) : Prop :=
  r'.1 = r.1 ∧ R r'.2 r.2

section Followed

variable {io' : IomanX σ'} {io : IomanX σ} {L : σ' × τ' → Prop} {R : σ' × τ' → σ × τ → Prop}

theorem ftwLoop_follows (hio : Followed io' io L R)
    {doEntry' : CStr → σ' × τ' → Option (ℤ × CStr × σ' × τ')}
    {doEntry : CStr → σ × τ → Option (ℤ × CStr × σ × τ)}
    (hlost : ∀ p s, L s → Only (fun r => L r.2.2) (doEntry' p s))
    (hentry : ∀ p s' s, R s' s →
      Follows (fun r => L r.2.2) (SameWay R) (doEntry' p s') (doEntry p s)) {d : ℤ} {l j : ℕ} :
    ∀ (fuel : ℕ) (de : IoxDirent) (path : CStr) (s' : σ' × τ') (s : σ × τ), R s' s →
      Follows (fun r => L r.2.2) (SameWay R) (ftwLoop io' doEntry' d l j fuel de path s')
        (ftwLoop io doEntry d l j fuel de path s) := by
  intro fuel
  induction fuel with
  | zero => exact fun _ _ _ _ _ => .none
  | succ fuel ih =>
    rintro de path ⟨w', t'⟩ ⟨w, t⟩ hR
    have hrest := ftwLoop_only (d := d) (l := l) (j := j) hio.lost.walk hlost trivial fuel
    rcases hio.step (.dread d de) w' t' w t hR with hL | ⟨hreply, hread⟩
    · exact .lost (ftwLoop_only_of_dread hio.lost.walk hlost trivial hrest hL)
    · have hclose : ∀ r path s' s, R s' s → Follows (fun r => L r.2.2) (SameWay R)
          (some (r, path, (io' (.close d) s'.1).2, s'.2))
          (some (r, path, (io (.close d) s.1).2, s.2)) := by
        intro r path s' s hs
        rcases hio.step (.close d) s'.1 s'.2 s.1 s.2 hs with hL | ⟨-, hs⟩
        · exact .lost (.some hL)
        · exact .some ⟨rfl, rfl, hs⟩
      simp only [ftwLoop, hreply]
      split
      · split
        · exact ih _ _ _ _ hread
        · split
          · exact hclose _ _ _ _ hread
          · refine (hentry _ _ _ hread).bind (fun r hr => ?_) fun r' r hr => ?_
            · split
              · exact .some (hio.lost _ _ _ hr)
              · exact hrest _ _ _ hr
            · obtain ⟨r', p', s'⟩ := r'
              obtain ⟨r, p, s⟩ := r
              obtain ⟨rfl, rfl, hs⟩ := hr
              simp only
              split
              · exact hclose _ _ _ _ hs
              · exact ih _ _ _ _ hs
      · exact hclose _ _ _ _ hread

theorem doWrappedFtw_follows (hio : Followed io' io L R) (uninit : Uninit) {fn' : Callback σ' τ'}
    {fn : Callback σ τ} (hlost : ∀ pi p st s, L s → Only (fun r => L r.2) (fn' pi p st s))
    (hfn : ∀ pi p st s' s, (∃ w, st = (io (.getstat p) w).1.stat) → R s' s →
      Follows (fun r => L r.2) (SameEnd R) (fn' pi p st s') (fn pi p st s)) (pi : PathInfo) :
    ∀ (fuel : ℕ) (path : CStr) (s' : σ' × τ') (s : σ × τ), R s' s →
      Follows (fun r => L r.2.2) (SameWay R) (doWrappedFtw io' uninit fn' pi fuel path s')
        (doWrappedFtw io uninit fn pi fuel path s) := by
  intro fuel
  induction fuel with
  | zero => exact fun _ _ _ _ => .none
  | succ fuel ih =>
    rintro path ⟨w', t'⟩ ⟨w, t⟩ hR
    have hrest := doWrappedFtw_only hio.lost.walk uninit hlost pi fuel
    rcases hio.step (.getstat path) w' t' w t hR with hL | ⟨hreply, hstat⟩
    · exact .lost (doWrappedFtw_only_of_getstat hio.lost.walk uninit hlost hrest hL)
    · simp only [doWrappedFtw, hreply]
      split
      · exact .some ⟨rfl, rfl, hstat⟩
      · refine (hfn _ _ _ _ _ ⟨w, rfl⟩ hstat).bind (fun r hr => ?_) fun r' r hr => ?_
        · split
          · exact .some hr
          · split
            · have hopen := hio.lost (.dopen path) _ _ hr
              split
              · exact ftwLoop_only hio.lost.walk hrest trivial _ _ _ _ hopen
              · exact .some hopen
            · exact .some hr
        · obtain ⟨r', w', t'⟩ := r'
          obtain ⟨r, w, t⟩ := r
          obtain ⟨rfl, hs⟩ := hr
          simp only
          split
          · exact .some ⟨rfl, rfl, hs⟩
          · split
            · rcases hio.step (.dopen path) w' t' w t hs with hL | ⟨hreply, hopen⟩
              · refine .lost ?_
                split
                · exact ftwLoop_only hio.lost.walk hrest trivial _ _ _ _ hL
                · exact .some hL
              · rw [hreply]
                split
                · exact ftwLoop_follows hio hrest ih _ _ _ _ _ hopen
                · exact .some ⟨rfl, rfl, hopen⟩
            · exact .some ⟨rfl, rfl, hs⟩

theorem wrappedFtw_follows (hio : Followed io' io L R) (uninit : Uninit) {fn' : Callback σ' τ'}
    {fn : Callback σ τ} (hlost : ∀ pi p st s, L s → Only (fun r => L r.2) (fn' pi p st s))
    (hfn : ∀ pi p st s' s, (∃ w, st = (io (.getstat p) w).1.stat) → R s' s →
      Follows (fun r => L r.2) (SameEnd R) (fn' pi p st s') (fn pi p st s)) (fuel : ℕ)
    (pathPrefix path : CStr) (s' : σ' × τ') (s : σ × τ) (hR : R s' s) :
    Follows (fun r => L r.2) (SameEnd R) (wrappedFtw io' uninit fuel pathPrefix path fn' s')
      (wrappedFtw io uninit fuel pathPrefix path fn s) := by
  unfold wrappedFtw
  split
  · exact .some ⟨rfl, hR⟩
  · exact (doWrappedFtw_follows hio uninit hlost hfn _ fuel path s' s hR).map (fun r hr => hr)
      fun r' r hr => .inr ⟨hr.1, hr.2.2⟩

theorem partLoop_follows (hio : Followed io' io L R) {say' : Message → τ' → τ'}
    {say : Message → τ → τ} (hsay' : ∀ m w t, L (w, t) → L (w, say' m t))
    (hsay : ∀ m w' t' w t, R (w', t') (w, t) → R (w', say' m t') (w, say m t)) {flag : ℕ}
    {arg : Option CStr} {doPart' : CStr → σ' × τ' → Option (σ' × τ')}
    {doPart : CStr → σ × τ → Option (σ × τ)} (hlost : ∀ p s, L s → Only L (doPart' p s))
    (hpart : ∀ p s' s, R s' s → Follows L R (doPart' p s') (doPart p s)) {dh : ℤ} :
    ∀ (fuel : ℕ) (de : IoxDirent) (s' : σ' × τ') (s : σ × τ), R s' s →
      Follows L R (partLoop io' say' flag arg doPart' dh fuel de s')
        (partLoop io say flag arg doPart dh fuel de s) := by
  intro fuel
  induction fuel with
  | zero => exact fun _ _ _ _ => .none
  | succ fuel ih =>
    rintro de ⟨w', t'⟩ ⟨w, t⟩ hR
    have hrest : ∀ de s, L s → Only L (partLoop io' say' flag arg doPart' dh fuel de s) :=
      partLoop_only hio.lost hsay' hlost fuel
    rcases hio.step (.dread dh de) w' t' w t hR with hL | ⟨hreply, hread⟩
    · exact .lost (partLoop_only_of_dread hio.lost hsay' hlost hrest hL)
    · simp only [partLoop, hreply]
      split
      · split
        · rcases hio.step (.mount mountPoint ((hdd ++ (io (.dread dh de) w).1.dirent.name).take 255)
            flag) _ _ _ _ hread with hL | ⟨hreply₂, hmount⟩
          · refine .lost ?_
            split
            · exact hrest _ _ (hsay' _ _ _ hL)
            · exact (hlost _ _ hL).bind fun s hs => hrest _ _ (hio.lost _ _ _ hs)
          · rw [hreply₂]
            split
            · exact ih _ _ _ (hsay _ _ _ _ _ hmount)
            · refine (hpart _ _ _ hmount).bind
                (fun s hs => hrest _ _ (hio.lost _ _ _ hs)) fun s' s hs => ?_
              rcases hio.step (.umount mountPoint) s'.1 s'.2 s.1 s.2 hs with hL | ⟨-, hs⟩
              · exact .lost (hrest _ _ hL)
              · exact ih _ _ _ hs
        · exact ih _ _ _ hread
      · exact .some hread

theorem eachPart_follows (hio : Followed io' io L R) (uninit : Uninit) {say' : Message → τ' → τ'}
    {say : Message → τ → τ} (hsay' : ∀ m w t, L (w, t) → L (w, say' m t))
    (hsay : ∀ m w' t' w t, R (w', t') (w, t) → R (w', say' m t') (w, say m t)) {flag : ℕ}
    {arg : Option CStr} {doPart' : CStr → σ' × τ' → Option (σ' × τ')}
    {doPart : CStr → σ × τ → Option (σ × τ)} (hlost : ∀ p s, L s → Only L (doPart' p s))
    (hpart : ∀ p s' s, R s' s → Follows L R (doPart' p s') (doPart p s)) (fuel : ℕ)
    {s' : σ' × τ'} {s : σ × τ} (hR : R s' s) :
    Follows (fun r => L r.2) (SameEnd R) (eachPart io' uninit say' flag arg doPart' fuel s')
      (eachPart io uninit say flag arg doPart fuel s) := by
  obtain ⟨w', t'⟩ := s'
  obtain ⟨w, t⟩ := s
  rcases hio.step (.dopen hdd) w' t' w t hR with hL | ⟨hreply, hopen⟩
  · exact .lost (eachPart_only_of_dopen hio.lost uninit hsay' hlost fuel hL)
  · simp only [eachPart, hreply]
    split
    · refine (partLoop_follows hio hsay' hsay hlost hpart fuel _ _ _ hopen).map
        (fun s hs => ?_) fun s' s hs => ?_
      · have hclose := hio.lost (.close (io (.dopen hdd) w).1.ret) s.1 s.2 hs
        split
        · exact hsay' _ _ _ hclose
        · exact hclose
      · rcases hio.step (.close (io (.dopen hdd) w).1.ret) s'.1 s'.2 s.1 s.2 hs with hL | ⟨hret, hs⟩
        · refine .inl ?_
          split
          · exact hsay' _ _ _ hL
          · exact hL
        · rw [hret]
          split
          · exact .inr ⟨rfl, hsay _ _ _ _ _ hs⟩
          · exact .inr ⟨rfl, hs⟩
    · exact .some ⟨rfl, hsay _ _ _ _ _ hopen⟩

end Followed

end PfsShell.Pfs2tar
