import Mathlib.Data.List.TakeDrop

/-!
# Buffers

A part of a list at an offset, and a list with a part of it written over.
-/

namespace Buffer

variable {α : Type} {buf bs : List α} {pos p size : Nat}

/-- The `size` values at `pos`. -/
def slice (buf : List α) (pos size : Nat) : List α := (buf.drop pos).take size

/-- `bs` written over what was at `pos`. -/
def patch (buf : List α) (pos : Nat) (bs : List α) : List α := buf.take pos ++ bs ++ buf.drop (pos + bs.length)

theorem length_slice (h : pos + size ≤ buf.length) : (slice buf pos size).length = size := by
  rw [slice, List.length_take, List.length_drop]
  omega

theorem length_patch (h : pos + bs.length ≤ buf.length) : (patch buf pos bs).length = buf.length := by
  rw [patch, List.length_append, List.length_append, List.length_take, List.length_drop]
  omega

theorem slice_patch (h : pos ≤ buf.length) : slice (patch buf pos bs) pos bs.length = bs := by
  have hlen : (buf.take pos).length = pos := List.length_take_of_le h
  rw [slice, patch, List.append_assoc, List.drop_left' hlen, List.take_left]

/-- What lies behind the written part is kept. -/
theorem drop_patch (h : pos + bs.length ≤ buf.length) (hp : pos + bs.length ≤ p) :
    (patch buf pos bs).drop p = buf.drop p := by
  have hlen : (buf.take pos ++ bs).length = pos + bs.length := by
    rw [List.length_append, List.length_take_of_le (by omega)]
  obtain ⟨d, rfl⟩ := Nat.exists_eq_add_of_le hp
  rw [patch, ← List.drop_drop, List.drop_left' hlen, List.drop_drop]

/-- What lies before the written part is kept. -/
theorem take_patch (h : pos ≤ buf.length) (hp : p ≤ pos) : (patch buf pos bs).take p = buf.take p := by
  have hlen : p ≤ (buf.take pos).length := by
    rw [List.length_take_of_le h]
    exact hp
  rw [patch, List.append_assoc, List.take_append_of_le_length hlen, List.take_take, Nat.min_eq_left hp]

/-- What is written lies behind what is kept before it. -/
theorem take_patch_add (h : pos ≤ buf.length) : (patch buf pos bs).take (pos + bs.length) = buf.take pos ++ bs := by
  have hlen : (buf.take pos ++ bs).length = pos + bs.length := by
    rw [List.length_append, List.length_take_of_le h]
  rw [patch, List.take_left' hlen]

theorem slice_patch_of_disjoint (h : pos + bs.length ≤ buf.length) (hp : p + size ≤ pos ∨ pos + bs.length ≤ p) :
    slice (patch buf pos bs) p size = slice buf p size := by
  cases hp with
  | inl hp =>
      have htake (l : List α) : slice l p size = (l.take (p + size)).drop p := by
        rw [slice, List.take_drop]
      rw [htake, htake, take_patch (by omega) hp]
  | inr hp => rw [slice, slice, drop_patch h hp]

/-! ## Layouts -/

theorem slice_append_left {l : List α} (h : l.length = pos) (hsize : bs.length = size) (r : List α) :
    slice (l ++ (bs ++ r)) pos size = bs := by
  rw [slice, List.drop_left' h, List.take_left' hsize]

theorem patch_append_left {l c : List α} (h : l.length = pos) (hsize : bs.length = c.length) (r : List α) :
    patch (l ++ (c ++ r)) pos bs = l ++ (bs ++ r) := by
  have hdrop : (l ++ (c ++ r)).drop (pos + bs.length) = r := by
    rw [← List.append_assoc, List.drop_left' (by rw [List.length_append, h, hsize])]
  rw [patch, List.take_left' h, hdrop, List.append_assoc]

end Buffer
