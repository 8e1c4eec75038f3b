/-
# Strings in buffers

A buffer holds a string at an offset when the string stands there with the NUL behind it
(`StringAt`).  What is behind the NUL does not matter: the string is the only one there, and
writing behind it does not damage it.

A copy into a buffer of `n` bytes that ends with `buf[n - 1] = 0` leaves the text that was copied,
up to its own NUL (`stringAt_copy`).
-/
import PfsShell.Lib.Bytes

namespace PfsShell.Lib

/-- A buffer holds a string at an offset, with its NUL. -/
def StringAt (buf : List UInt8) (start : ℕ) (s : CStr) : Prop :=
  0 ∉ s ∧ ∃ rest, buf.drop start = s ++ 0 :: rest

section Strings

variable {buf : List UInt8} {start : ℕ} {s s' : CStr}

theorem StringAt.cutAt_eq (h : StringAt buf start s) : cutAt 0 (buf.drop start) = s := by
  obtain ⟨hnul, rest, hrest⟩ := h
  rw [hrest, cutAt_append_cons hnul]

/-- There is one string at an offset. -/
theorem StringAt.unique (h : StringAt buf start s) (h' : StringAt buf start s') : s = s' := by
  rw [← h.cutAt_eq, h'.cutAt_eq]

/-- **What is written behind a string does not damage it.** -/
theorem StringAt.append (h : StringAt buf start s) (more : List UInt8) :
    StringAt (buf ++ more) start s := by
  obtain ⟨hnul, rest, hrest⟩ := h
  have hlen : start ≤ buf.length := by
    by_contra hlt
    rw [List.drop_eq_nil_of_le (by omega)] at hrest
    cases s <;> cases hrest
  refine ⟨hnul, rest ++ more, ?_⟩
  rw [List.drop_append_of_le_length hlen, hrest, List.append_assoc, List.cons_append]

/-- The NUL that is written behind a text makes it a string. -/
theorem stringAt_of_drop (hle : start ≤ buf.length) (hdrop : buf.drop start = s) (hnul : 0 ∉ s) :
    StringAt (buf ++ [0]) start s := by
  refine ⟨hnul, [], ?_⟩
  rw [List.drop_append_of_le_length hle, hdrop]

/-- No text has a NUL in front of its NUL. -/
theorem notMem_cutAt (c : UInt8) (s : CStr) : c ∉ cutAt c s := by
  intro hmem
  have h := List.mem_takeWhile_imp hmem
  simp at h

/-- In front of a NUL stands the text up to the first one. -/
theorem stringAt_cutAt (pre rest : List UInt8) : StringAt (pre ++ 0 :: rest) 0 (cutAt 0 pre) := by
  refine ⟨notMem_cutAt 0 pre, ?_⟩
  rw [List.drop_zero]
  induction pre with
  | nil => exact ⟨rest, rfl⟩
  | cons c pre ih =>
    by_cases hc : c = 0
    · subst hc
      refine ⟨pre ++ 0 :: rest, ?_⟩
      rw [cutAt_cons_self]
      rfl
    · obtain ⟨more, hmore⟩ := ih
      refine ⟨more, ?_⟩
      rw [cutAt_cons_of_ne hc, List.cons_append, hmore, List.cons_append]

/-- A text whose own NUL comes first, whatever follows. -/
theorem stringAt_of_mem {pre : List UInt8} (h : 0 ∈ pre) (rest : List UInt8) :
    StringAt (pre ++ rest) 0 (cutAt 0 pre) := by
  obtain ⟨more, hmore⟩ := cutAt_concat_prefix h
  refine ⟨notMem_cutAt 0 pre, more ++ rest, ?_⟩
  rw [List.drop_zero]
  calc pre ++ rest = (cutAt 0 pre ++ [0] ++ more) ++ rest := by rw [hmore]
    _ = cutAt 0 pre ++ 0 :: (more ++ rest) := by simp

/-- A text without a NUL is a string exactly when the next byte is one. -/
theorem stringAt_append_cons_iff (h : 0 ∉ s) (c : UInt8) (rest : List UInt8) :
    StringAt (s ++ c :: rest) 0 s ↔ c = 0 := by
  constructor
  · rintro ⟨-, more, hmore⟩
    exact (List.cons.inj (List.append_cancel_left hmore)).1
  · rintro rfl
    exact ⟨h, rest, rfl⟩

/-- Without a NUL the text goes on. -/
theorem cutAt_append_of_notMem (h : 0 ∉ s) (rest : List UInt8) :
    cutAt 0 (s ++ rest) = s ++ cutAt 0 rest := by
  rw [cutAt, List.takeWhile_append_of_pos]
  · rfl
  · intro c hc
    simpa using ne_of_mem_of_not_mem hc h

/-- A text that is shorter than its field has its NUL there. -/
theorem mem_of_cutAt_lt {field : List UInt8} (h : (cutAt 0 field).length < field.length) :
    0 ∈ field := by
  by_contra hno
  rw [cutAt_of_notMem hno] at h
  exact Nat.lt_irrefl _ h

theorem cutAt_take (c : UInt8) (s : CStr) (m : ℕ) : cutAt c (s.take m) = (cutAt c s).take m := by
  induction s generalizing m with
  | nil => simp [cutAt]
  | cons x s ih =>
    cases m with
    | zero => rfl
    | succ m =>
      rw [List.take_succ_cons]
      by_cases hx : x = c
      · subst hx
        rw [cutAt_cons_self, cutAt_cons_self, List.take_nil]
      · rw [cutAt_cons_of_ne hx, cutAt_cons_of_ne hx, List.take_succ_cons, ih]

/-- The field may have no NUL before the last byte that is copied. -/
theorem cutAt_take_of_lt {field : List UInt8} {k : ℕ} (h : (cutAt 0 field).length < k) :
    cutAt 0 (field.take k) = cutAt 0 field := by
  rw [cutAt_take, List.take_of_length_le (Nat.le_of_lt h)]

/-- A text that fills all of what is copied but its NUL. -/
theorem take_eq_of_cutAt {field : List UInt8} {k : ℕ} (hk : k < field.length)
    (h : (cutAt 0 field).length = k) : field.take k = cutAt 0 field := by
  have hbegin := cutAt_concat_prefix (mem_of_cutAt_lt (h ▸ hk) : 0 ∈ field)
  have htext := List.prefix_iff_eq_take.mp ((List.prefix_append _ _).trans hbegin)
  rw [h] at htext
  exact htext.symm

/-- **A copy of `n - 1` bytes, and `buf[n - 1] = 0`.** -/
theorem stringAt_copy {n : ℕ} {pre : List UInt8} (hn : 1 ≤ n) (hbuf : n ≤ buf.length)
    (hpre : pre.length = n - 1) :
    StringAt ((pre ++ buf.drop (n - 1)).set (n - 1) 0) 0 (cutAt 0 pre) := by
  have hlt : n - 1 < buf.length := by omega
  have hset : (pre ++ buf.drop (n - 1)).set (n - 1) 0 = pre ++ 0 :: buf.drop (n - 1 + 1) := by
    rw [List.set_append_right _ _ (Nat.le_of_eq hpre), hpre, Nat.sub_self,
      List.drop_eq_getElem_cons hlt, List.set_cons_zero]
  rw [hset]
  exact stringAt_cutAt pre _

/-- `strncpy` fills `n` bytes. -/
theorem length_strncpy (n : ℕ) (src : List UInt8) : (strncpy n src).length = n := by
  rw [strncpy, List.length_append, List.length_take, List.length_replicate]
  omega

/-- What `strncpy` leaves of a text. -/
theorem cutAt_strncpy (n : ℕ) (src : List UInt8) :
    cutAt 0 (strncpy n src) = (cutAt 0 src).take n := by
  rw [strncpy]
  have hnul : 0 ∉ (cutAt 0 src).take n := by
    intro hmem
    exact notMem_cutAt 0 src (List.mem_of_mem_take hmem)
  cases hpad : n - (cutAt 0 src).length with
  | zero => rw [List.replicate_zero, List.append_nil, cutAt_of_notMem hnul]
  | succ k => rw [List.replicate_succ, cutAt_append_cons hnul]

end Strings

end PfsShell.Lib
