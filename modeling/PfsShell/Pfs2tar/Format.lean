/-
# The format of an archive

An archive is a sequence of entries: a header of 512 bytes, and as many blocks of 512 bytes as
the number in the header's `SIZE` field needs.  Two blocks of zeros are its end.
-/
import PfsShell.Pfs2tar.Header

namespace PfsShell.Pfs2tar

open PfsShell.Lib

/-- The number in the `SIZE` field. -/
def octalSize (header : List UInt8) : ℤ := strtol8 (field header SIZE 12)

/-- An entry: its header, and its blocks in one piece. -/
structure Entry where
  header : List UInt8
  blocks : List UInt8
  header_length : header.length = 512
  blocks_length : (blocks.length : ℤ) = 512 * ((octalSize header + 511) / 512)

def Entry.bytes (e : Entry) : List UInt8 := e.header ++ e.blocks

/-- The end of the archive. -/
def zeros : List UInt8 := List.replicate 512 0 ++ List.replicate 512 0

/-- The bytes are a sequence of entries and then the two blocks. -/
def IsArchive (bytes : List UInt8) : Prop :=
  ∃ entries : List Entry, bytes = entries.flatMap Entry.bytes ++ zeros

theorem Entry.length_bytes (e : Entry) : e.bytes.length = 512 + e.blocks.length := by
  rw [bytes, List.length_append, e.header_length]

@[simp] theorem Entry.take_bytes (e : Entry) (rest : List UInt8) :
    (e.bytes ++ rest).take 512 = e.header := by
  rw [bytes, List.append_assoc, List.take_left' e.header_length]

@[simp] theorem Entry.drop_bytes (e : Entry) (rest : List UInt8) :
    (e.bytes ++ rest).drop 512 = e.blocks ++ rest := by
  rw [bytes, List.append_assoc, List.drop_left' e.header_length]

/-- A text is a sequence of entries when its pieces are, and what is in the entries of a piece is
in those of the text. -/
theorem exists_entries {α : Type*} {f : α → List UInt8} {Q : α → List Entry → Prop}
    (hmono : ∀ x es es', es ⊆ es' → Q x es → Q x es') (l : List α)
    (h : ∀ x ∈ l, ∃ es, f x = es.flatMap Entry.bytes ∧ Q x es) :
    ∃ es, l.flatMap f = es.flatMap Entry.bytes ∧ ∀ x ∈ l, Q x es := by
  induction l with
  | nil => exact ⟨[], rfl, fun x hx => absurd hx List.not_mem_nil⟩
  | cons x l ih =>
    obtain ⟨es, hes, hx⟩ := h x List.mem_cons_self
    obtain ⟨rest, hrest, hall⟩ := ih fun y hy => h y (List.mem_cons_of_mem _ hy)
    refine ⟨es ++ rest, by rw [List.flatMap_cons, List.flatMap_append, hes, hrest], fun y hy => ?_⟩
    rcases List.mem_cons.mp hy with rfl | hy
    · exact hmono y es _ (List.subset_append_left _ _) hx
    · exact hmono y rest _ (List.subset_append_right _ _) (hall y hy)

/-- An entry as `restore_from_tar` expects it: it has a name, its size is an `unsigned int`, and
directories and links have none. -/
structure Entry.Restorable (e : Entry) : Prop where
  name : nameField e.header ≠ []
  size : 0 ≤ octalSize e.header ∧ octalSize e.header < 4294967296
  bare : typeField e.header = 53 ∨ typeField e.header = 50 → octalSize e.header = 0

theorem Entry.Restorable.sizeField {e : Entry} (h : e.Restorable) :
    ((Pfs2tar.sizeField e.header : ℕ) : ℤ) = octalSize e.header := by
  have hmod : octalSize e.header % 4294967296 = octalSize e.header :=
    Int.emod_eq_of_lt h.size.1 h.size.2
  have heq : Pfs2tar.sizeField e.header = (octalSize e.header % 4294967296).toNat := rfl
  rw [heq, hmod]
  exact Int.toNat_of_nonneg h.size.1

theorem Entry.Restorable.blocks_length {e : Entry} (h : e.Restorable) :
    e.blocks.length = (Pfs2tar.sizeField e.header + 511) / 512 * 512 := by
  have := e.blocks_length
  rw [← h.sizeField] at this
  omega

/-- The header of an entry with a name does not begin with a zero. -/
theorem Entry.Restorable.head {e : Entry} (h : e.Restorable) (rest : List UInt8) :
    (e.bytes ++ rest).head? ≠ some 0 := by
  intro h0
  have hname : nameField e.header = [] := by
    obtain ⟨c, r, hcr⟩ := List.exists_cons_of_ne_nil
      (List.ne_nil_of_length_pos (by rw [e.header_length]; omega : 0 < e.header.length))
    rw [Entry.bytes, hcr] at h0
    have hc : c = 0 := Option.some.inj h0
    have hcut : nameField e.header = cutAt 0 ((c :: r).take 100) := by rw [hcr]; rfl
    rw [hcut, hc]
    rfl
  exact h.name hname

end PfsShell.Pfs2tar
