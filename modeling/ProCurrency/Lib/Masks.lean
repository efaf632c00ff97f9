import Mathlib.Algebra.BigOperators.Group.List.Basic

/-!
# Masks

A list of flags picks the items of a list that stand at the same places. Sums over what is picked follow the flags
one by one.
-/

namespace Masks

variable {α : Type}

/-- The items whose flag is set. -/
def pick : List Bool → List α → List α
  | true :: mask, x :: xs => x :: pick mask xs
  | false :: mask, _ :: xs => pick mask xs
  | [], _ => []
  | _, [] => []

@[simp] theorem pick_nil_right (mask : List Bool) : pick mask ([] : List α) = [] := by
  cases mask with
  | nil => rfl
  | cons b mask => cases b <;> rfl

theorem pick_sublist (mask : List Bool) (xs : List α) : (pick mask xs).Sublist xs := by
  induction xs generalizing mask with
  | nil => simp
  | cons x xs ih =>
      cases mask with
      | nil => exact List.nil_sublist _
      | cons b mask =>
          cases b with
          | false => exact (ih mask).cons x
          | true => exact (ih mask).cons_cons x

/-- With every flag set the whole list is picked. -/
theorem pick_replicate_true (xs : List α) : pick (List.replicate xs.length true) xs = xs := by
  induction xs with
  | nil => rfl
  | cons x xs ih => rw [List.length_cons, List.replicate_succ, pick, ih]

/-- With no flag set nothing is picked. -/
theorem pick_replicate_false (n : Nat) (xs : List α) : pick (List.replicate n false) xs = [] := by
  induction n generalizing xs with
  | zero => cases xs <;> rfl
  | succ n ih =>
      cases xs with
      | nil => rfl
      | cons x xs => rw [List.replicate_succ, pick, ih]

/-- Setting a flag adds the item to every sum over what is picked. -/
theorem sum_pick_set {M : Type} [AddCommMonoid M] (f : α → M) {mask : List Bool} {xs : List α} {i : Nat} {x : α}
    (hx : xs[i]? = some x) (hi : mask[i]? = some false) :
    ((pick (mask.set i true) xs).map f).sum = f x + ((pick mask xs).map f).sum := by
  induction xs generalizing mask i with
  | nil => simp at hx
  | cons y xs ih =>
      cases mask with
      | nil => simp at hi
      | cons b mask =>
          cases i with
          | zero =>
              rw [List.getElem?_cons_zero, Option.some.injEq] at hx hi
              rw [hx, hi, List.set_cons_zero, pick, pick, List.map_cons, List.sum_cons]
          | succ i =>
              rw [List.getElem?_cons_succ] at hx hi
              rw [List.set_cons_succ]
              cases b with
              | false => exact ih hx hi
              | true =>
                  rw [pick, pick, List.map_cons, List.sum_cons, List.map_cons, List.sum_cons, ih hx hi, add_left_comm]

/-- A flag that was not set is put back. -/
theorem set_set_false {mask : List Bool} {i : Nat} (hi : mask[i]? = some false) :
    (mask.set i true).set i false = mask := by
  obtain ⟨hlt, hget⟩ := List.getElem?_eq_some_iff.1 hi
  rw [List.set_set, ← hget]
  exact List.set_getElem_self hlt

end Masks
