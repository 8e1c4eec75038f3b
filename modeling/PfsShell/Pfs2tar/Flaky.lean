/-
# A file system whose calls fail

`flaky` is iomanX over another one, in which `getstat`, `dopen`, `open` and `read` fail as a pattern
says.  It keeps a record of its calls, and `Clean` says of a record that no failure in it has lost
anything: what failed is an `open` or a `read` with nothing left to deliver.

`BackupFs` has the laws of a plain file system that a backup needs, for one whose calls can fail:
`kept` is what is true of a state in which nothing has been lost yet.  A plain file system keeps
everything (`PlainFs.backupFs`), and a flaky one as long as its record is clean
(`PlainFs.flaky`).
-/
import PfsShell.Pfs2tar.PlainFs

namespace PfsShell.Pfs2tar

open PfsShell.Lib

variable {σ : Type}

/-! ## 1. Failures -/

/-- The calls of a walk that can fail; `hdd0:` is opened before it. -/
def Call.mayFail : Call → Bool
  | .getstat _ | .open _ _ _ | .read _ _ => true
  | .dopen path => path ≠ hdd
  | _ => false

/-- The calls so far, each with the state before it. -/
abbrev Calls (σ : Type) := List (Call × σ)

/-- The error with which a call fails after `n` others. -/
def failure (pattern : ℕ → Option ℕ) (n : ℕ) (call : Call) : Option ℕ :=
  if call.mayFail then pattern n else none

/-- iomanX over `io`.  A call that fails returns a negative number and does nothing. -/
def flaky (io : IomanX σ) (pattern : ℕ → Option ℕ) : IomanX (σ × Calls σ)
  | call, (w, calls) =>
    match failure pattern calls.length call with
    | some e => ({ ret := Int.negSucc e }, w, calls ++ [(call, w)])
    | none => ((io call w).1, (io call w).2, calls ++ [(call, w)])

/-- The call has nothing to deliver: it opens an empty file, or reads at the end of one. -/
def Delivered (V : World) : Call → Prop
  | .open path _ _ => ∃ P c i, V.At P c ∧ path = pfsPath c ∧ V.tree P c = some i ∧
      i.body = .file []
  | .read f _ => ∃ P c pos i bytes, V.mounted = some P ∧ V.files f = some (c, pos) ∧
      V.tree P c = some i ∧ i.body = .file bytes ∧ bytes.drop pos = []
  | _ => False

/-- The calls that failed had nothing to deliver. -/
def Clean (view : σ → World) (pattern : ℕ → Option ℕ) (calls : Calls σ) : Prop :=
  ∀ n call w, calls[n]? = some (call, w) → failure pattern n call ≠ none →
    Delivered (view w) call

section Clean

variable {view : σ → World} {pattern : ℕ → Option ℕ} {calls : Calls σ} {call : Call} {w : σ}

theorem Clean.of_concat (h : Clean view pattern (calls ++ [(call, w)])) :
    Clean view pattern calls := by
  intro n c v hn hfail
  refine h n c v ?_ hfail
  rw [List.getElem?_append_left (List.getElem?_eq_some_iff.mp hn).1]
  exact hn

theorem Clean.last (h : Clean view pattern (calls ++ [(call, w)]))
    (hfail : failure pattern calls.length call ≠ none) : Delivered (view w) call :=
  h calls.length call w List.getElem?_concat_length hfail

end Clean

/-! ## 2. Laws -/

/-- **What a backup needs of iomanX**, as in `PlainFs`; but `getstat`, `dopen`, `open` and `read`
can fail.  Then they leave everything as it is, and if something is still `kept`, there was nothing
to deliver. -/
structure BackupFs (io : IomanX σ) (view : σ → World) (kept : σ → Prop) : Prop where
  before : ∀ {c w}, kept (io c w).2 → kept w
  getstat : ∀ {w P c i}, (view w).At P c → (view w).tree P c = some i →
    view (io (.getstat (pfsPath c)) w).2 = view w ∧
      ((io (.getstat (pfsPath c)) w).1.ret < 0 ∧ ¬ kept (io (.getstat (pfsPath c)) w).2 ∨
        (io (.getstat (pfsPath c)) w).1.ret = 0 ∧
          (io (.getstat (pfsPath c)) w).1.stat.Describes i)
  dopen_hdd : ∀ {w}, ∃ d, (io (.dopen hdd) w).1.ret = d ∧ (view w).Free d ∧
    view (io (.dopen hdd) w).2 = (view w).setDir d (some (view w).hdd)
  dopen_dir : ∀ {w P c}, (view w).At P c → ((view w).tree P).IsDir c →
    (io (.dopen (pfsPath c)) w).1.ret < 0 ∧ ¬ kept (io (.dopen (pfsPath c)) w).2 ∧
        view (io (.dopen (pfsPath c)) w).2 = view w ∨
      ∃ d listing, (io (.dopen (pfsPath c)) w).1.ret = d ∧ (view w).Free d ∧
        ((view w).tree P).Lists c listing ∧
        view (io (.dopen (pfsPath c)) w).2 = (view w).setDir d (some listing)
  dread_cons : ∀ {w d e listing} buffer, (view w).dirs d = some (e :: listing) →
    0 < (io (.dread d buffer) w).1.ret ∧ (io (.dread d buffer) w).1.dirent = e ∧
      view (io (.dread d buffer) w).2 = (view w).setDir d (some listing)
  dread_nil : ∀ {w d} buffer, (view w).dirs d = some [] →
    (io (.dread d buffer) w).1.ret = 0 ∧ view (io (.dread d buffer) w).2 = view w
  close_dir : ∀ {w d listing}, (view w).dirs d = some listing →
    0 ≤ (io (.close d) w).1.ret ∧ view (io (.close d) w).2 = (view w).setDir d none
  close_file : ∀ {w f file}, (view w).files f = some file →
    view (io (.close f) w).2 = (view w).setFile f none
  close_neg : ∀ {w d}, d < 0 → view (io (.close d) w).2 = view w
  open_read : ∀ {w P c i bytes}, (view w).At P c → (view w).tree P c = some i →
    i.body = .file bytes →
    (io (.open (pfsPath c) fioORdonly 0) w).1.ret < 0 ∧
        (kept (io (.open (pfsPath c) fioORdonly 0) w).2 → bytes = []) ∧
        view (io (.open (pfsPath c) fioORdonly 0) w).2 = view w ∨
      ∃ f, (io (.open (pfsPath c) fioORdonly 0) w).1.ret = f ∧ (view w).Free f ∧
        view (io (.open (pfsPath c) fioORdonly 0) w).2 = (view w).setFile f (some (c, 0))
  read : ∀ {w P c i bytes f pos n}, (view w).mounted = some P →
    (view w).files f = some (c, pos) → (view w).tree P c = some i → i.body = .file bytes →
    (io (.read f n) w).1.ret < 0 ∧ (kept (io (.read f n) w).2 → bytes.drop pos = []) ∧
        view (io (.read f n) w).2 = view w ∨
      (io (.read f n) w).1.ret = ((bytes.drop pos).take n).length ∧
        (io (.read f n) w).1.data = (bytes.drop pos).take n ∧
        view (io (.read f n) w).2 =
          (view w).setFile f (some (c, pos + ((bytes.drop pos).take n).length))
  readlink : ∀ {w P c i target n}, (view w).At P c → (view w).tree P c = some i →
    i.body = .link target → (io (.readlink (pfsPath c) n) w).1.data = target.take n ∧
      view (io (.readlink (pfsPath c) n) w).2 = view w
  mount : ∀ {w de} flag, (view w).mounted = none → de ∈ (view w).hdd → selected none de = true →
    0 ≤ (io (.mount mountPoint (hdd ++ de.name) flag) w).1.ret ∧
      view (io (.mount mountPoint (hdd ++ de.name) flag) w).2 =
        { view w with mounted := some de.name }
  umount : ∀ {w}, view (io (.umount mountPoint) w).2 = { view w with mounted := none }

section Flaky

variable {io : IomanX σ} {view : σ → World} {pattern : ℕ → Option ℕ}

/-- A call fails, or it does what it does without failures. -/
theorem flaky_cases (io : IomanX σ) (pattern : ℕ → Option ℕ) (call : Call) (s : σ × Calls σ) :
    (failure pattern s.2.length call ≠ none ∧ (flaky io pattern call s).1.ret < 0 ∧
        (flaky io pattern call s).2 = (s.1, s.2 ++ [(call, s.1)])) ∨
      flaky io pattern call s = ((io call s.1).1, (io call s.1).2, s.2 ++ [(call, s.1)]) := by
  obtain ⟨w, calls⟩ := s
  cases hfail : failure pattern calls.length call with
  | none =>
    right
    simp only [flaky, hfail]
  | some e =>
    left
    simp only [flaky, hfail]
    exact ⟨Option.some_ne_none e, Int.negSucc_lt_zero e, trivial⟩

theorem flaky_of_sure {call : Call} (h : call.mayFail = false) (s : σ × Calls σ) :
    flaky io pattern call s = ((io call s.1).1, (io call s.1).2, s.2 ++ [(call, s.1)]) := by
  refine (flaky_cases io pattern call s).resolve_left fun hfail => ?_
  simp [failure, h] at hfail

theorem flaky_calls (call : Call) (s : σ × Calls σ) :
    (flaky io pattern call s).2.2 = s.2 ++ [(call, s.1)] := by
  rcases flaky_cases io pattern call s with ⟨-, -, h⟩ | h <;> rw [h]

/-- **A flaky file system keeps everything while its record is clean.** -/
theorem PlainFs.flaky (h : PlainFs io view) (pattern : ℕ → Option ℕ) :
    BackupFs (flaky io pattern) (fun s => view s.1) (fun s => Clean view pattern s.2) where
  before := fun {call s} hclean => by
    rw [flaky_calls] at hclean
    exact hclean.of_concat
  getstat := fun {s P c i} hc hi => by
    obtain ⟨hret, hst, hview⟩ := h.getstat_some hc hi
    rcases flaky_cases io pattern (.getstat (pfsPath c)) s with ⟨hfail, hneg, hs⟩ | hs
    · rw [hs]
      exact ⟨rfl, .inl ⟨hneg, fun hclean => hclean.last hfail⟩⟩
    · rw [hs]
      exact ⟨hview, .inr ⟨hret, hst⟩⟩
  dopen_hdd := fun {s} => by
    rw [flaky_of_sure rfl]
    exact h.dopen_hdd
  dopen_dir := fun {s P c} hc hdir => by
    rcases flaky_cases io pattern (.dopen (pfsPath c)) s with ⟨hfail, hneg, hs⟩ | hs
    · rw [hs]
      exact .inl ⟨hneg, fun hclean => hclean.last hfail, rfl⟩
    · rw [hs]
      exact .inr (h.dopen_dir hc hdir)
  dread_cons := fun buffer hdirs => by
    rw [flaky_of_sure rfl]
    exact h.dread_cons buffer hdirs
  dread_nil := fun buffer hdirs => by
    rw [flaky_of_sure rfl]
    exact h.dread_nil buffer hdirs
  close_dir := fun hdirs => by
    rw [flaky_of_sure rfl]
    exact h.close_dir hdirs
  close_file := fun hf => by
    rw [flaky_of_sure rfl]
    exact (h.close_file hf).2
  close_neg := fun hd => by
    rw [flaky_of_sure rfl]
    exact h.close_neg hd
  open_read := fun {s P c i bytes} hc hi hbody => by
    rcases flaky_cases io pattern (.open (pfsPath c) fioORdonly 0) s with ⟨hfail, hneg, hs⟩ | hs
    · rw [hs]
      refine .inl ⟨hneg, fun hclean => ?_, rfl⟩
      obtain ⟨Q, d, j, hd, hpath, hj, hempty⟩ := hclean.last hfail
      -- it is the same file
      obtain rfl := pfsPath_inj hc.2 hd.2 hpath
      obtain rfl := Option.some.inj (hc.1.symm.trans hd.1)
      obtain rfl := Option.some.inj (hi.symm.trans hj)
      rw [hempty] at hbody
      exact (Body.file.inj hbody).symm
    · rw [hs]
      exact .inr (h.open_read hc hi hbody)
  read := fun {s P c i bytes f pos n} hm hf hi hbody => by
    rcases flaky_cases io pattern (.read f n) s with ⟨hfail, hneg, hs⟩ | hs
    · rw [hs]
      refine .inl ⟨hneg, fun hclean => ?_, rfl⟩
      obtain ⟨Q, d, q, j, bytes', hm', hf', hj, hbody', hend⟩ := hclean.last hfail
      obtain rfl := Option.some.inj (hm.symm.trans hm')
      obtain ⟨rfl, rfl⟩ := Prod.mk.inj (Option.some.inj (hf.symm.trans hf'))
      obtain rfl := Option.some.inj (hi.symm.trans hj)
      rw [hbody] at hbody'
      rw [Body.file.inj hbody', hend]
    · rw [hs]
      exact .inr (h.read hm hf hi hbody)
  readlink := fun hc hi hbody => by
    rw [flaky_of_sure rfl]
    exact h.readlink hc hi hbody
  mount := fun flag hm hde hsel => by
    rw [flaky_of_sure rfl]
    exact h.mount flag hm hde hsel
  umount := fun {s} => by
    rw [flaky_of_sure rfl]
    exact h.umount

end Flaky

end PfsShell.Pfs2tar
