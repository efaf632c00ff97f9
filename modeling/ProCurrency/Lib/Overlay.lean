import Mathlib.Data.List.Basic

/-!
# Pending changes over a map

A store is a partial map, and a batch is a list of puts and deletes that is laid over it. What a batch
does to one key is decided by the last change to that key.
-/

namespace Overlay

variable {K V : Type}

/-- One pending change. -/
inductive Change (K V : Type) where
  | put (k : K) (v : V)
  | del (k : K)
  deriving Repr, DecidableEq

variable [DecidableEq K]

namespace Change

/-- The map after one change. -/
def apply (m : K → Option V) : Change K V → K → Option V
  | .put k v => fun k' => if k' = k then some v else m k'
  | .del k => fun k' => if k' = k then none else m k'

/-- What one change does to a key, `none` when it does not touch it. -/
def effect (k : K) : Change K V → Option (Option V)
  | .put k' v => if k = k' then some (some v) else none
  | .del k' => if k = k' then some none else none

theorem apply_eq (m : K → Option V) (c : Change K V) (k : K) :
    c.apply m k = (c.effect k).getD (m k) := by
  cases c with
  | put k' v => by_cases h : k = k' <;> simp [apply, effect, h]
  | del k' => by_cases h : k = k' <;> simp [apply, effect, h]

end Change

/-! ## Batches -/

/-- The map after the changes of a batch, in order. -/
def applyAll (m : K → Option V) (b : List (Change K V)) : K → Option V := b.foldl Change.apply m

/-- What a batch does to a key: the last change to it. -/
def lastOn (k : K) : List (Change K V) → Option (Option V)
  | [] => none
  | c :: b => (lastOn k b).or (c.effect k)

@[simp] theorem applyAll_nil (m : K → Option V) : applyAll m [] = m := rfl

@[simp] theorem applyAll_cons (m : K → Option V) (c : Change K V) (b : List (Change K V)) :
    applyAll m (c :: b) = applyAll (c.apply m) b := rfl

@[simp] theorem applyAll_append (m : K → Option V) (b b' : List (Change K V)) :
    applyAll m (b ++ b') = applyAll (applyAll m b) b' := by
  simp [applyAll, List.foldl_append]

/-- Reading through a batch: the last change to the key, or the map below. -/
theorem applyAll_eq (m : K → Option V) (b : List (Change K V)) (k : K) :
    applyAll m b k = (lastOn k b).getD (m k) := by
  induction b generalizing m with
  | nil => rfl
  | cons c b ih =>
      rw [applyAll_cons, ih, lastOn, Change.apply_eq]
      cases lastOn k b with
      | none => rfl
      | some o => rfl

end Overlay
